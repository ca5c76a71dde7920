import Hspp.Lib.Loop
import Hspp.Rtattr

/-! # `rta_to_str_IFLA_LINKINFO` (`yalin/rtattr.h`)

The decoder of a link's `IFLA_LINKINFO`: the kind is the first nested attribute, the data of
a VLAN the one that follows it, and the VLAN's own attributes are walked in a loop.  The
`snprintf` calls write to `str`; `linkinfoText` is the text they format.  What is printed to
`stdout` on the way is left out.

The length that seeds the step from the kind to the data is the kind's own, and the type of
the next attribute is read before the test for `NULL`.

`vlanAttr_eq` and `vlanLoop_eq` say what one round of the loop does, and `vlanLoop_exits` that
the loop always ends. -/

namespace Hspp

open CInt Loop Memory Records Text

def IFLA_LINKINFO : ℕ := 18
def IFLA_INFO_KIND : ℕ := 1
def IFLA_INFO_DATA : ℕ := 2
def IFLA_VLAN_ID : ℕ := 1
def IFLA_VLAN_FLAGS : ℕ := 2
def IFLA_VLAN_PROTOCOL : ℕ := 5

/-- `struct interface_info_vlan`. -/
structure InterfaceInfoVlan where
  proto : ℕ
  id : ℕ
  flags : ℕ
deriving DecidableEq, Repr

/-- The `switch` on the type of a VLAN attribute.  The types that are only reported as
unsupported and those without a case change nothing. -/
def vlanAttr (m : Mem) (nrta : ℕ) (vlaninfo : InterfaceInfoVlan) : Except Halt InterfaceInfoVlan :=
  let type := rtattrType m nrta
  if type = IFLA_VLAN_ID then
    (rtattrRead16bit m nrta).map fun id => { vlaninfo with id }
  else if type = IFLA_VLAN_FLAGS then
    (rtattrRead64bit m nrta).map fun flags => { vlaninfo with flags }
  else if type = IFLA_VLAN_PROTOCOL then
    (rtattrRead16bit m nrta).map fun proto => { vlaninfo with proto }
  else .ok vlaninfo

/-- The variables of the loop over the VLAN attributes. -/
structure VlanLoop where
  nrta : ℕ
  nbuflen : ℤ
  vlaninfo : InterfaceInfoVlan

/-- One round of `while (nrta)`. -/
def vlanLoop (m : Mem) (s : VlanLoop) : VlanLoop ⊕ Except Halt InterfaceInfoVlan :=
  match vlanAttr m s.nrta s.vlaninfo with
  | .error e => .inr (.error e)
  | .ok vlaninfo =>
      match rtattrNext m s.nrta s.nbuflen with
      | (none, _) => .inr (.ok vlaninfo)
      | (some nrta, nbuflen) =>
          if nbuflen ≤ 0 then .inr (.ok vlaninfo) else .inl ⟨nrta, nbuflen, vlaninfo⟩

/-- The loop over the VLAN attributes in the payload of `rta`.  It never runs out of rounds
(`vlanLoop_exits`). -/
def vlanAttrs (m : Mem) (rta : ℕ) : Except Halt InterfaceInfoVlan :=
  match run (vlanLoop m) 16384
      ⟨rtattrPayloadPtr rta, toSigned 64 (rtattrPayloadLen m rta), ⟨0, 0, 0⟩⟩ with
  | .inl _ => .error .spins
  | .inr r => r

/-- `"IFLA_LINKINFO vlan(id:%u, proto:0x%04x, flags:0x%08lx)"`. -/
def vlanText (vlaninfo : InterfaceInfoVlan) : List UInt8 :=
  ascii "IFLA_LINKINFO vlan(id:" ++ printNum 10 1 vlaninfo.id ++ ascii ", proto:0x" ++
    printNum 16 4 vlaninfo.proto ++ ascii ", flags:0x" ++ printNum 16 8 vlaninfo.flags ++ ascii ")"

/-- `"UNKNOWN LINK KIND (%s)"`. -/
def unknownKindText (strbuf : List UInt8) : List UInt8 :=
  ascii "UNKNOWN LINK KIND (" ++ strbuf ++ ascii ")"

/-- The text that the function formats. -/
def linkinfoText (m : Mem) (rootRta : ℕ) : Except Halt (List UInt8) :=
  if rtattrType m rootRta ≠ IFLA_LINKINFO then .error .assertFailed
  else
    let rta := rtattrNestNext rootRta
    if rtattrType m rta ≠ IFLA_INFO_KIND then .error .assertFailed
    else
      match rtattrReadStr m rta 100 with
      | .error e => .error e
      | .ok (strbuf, _) =>
          if strbuf = ascii "vlan" then
            match rtattrNext m rta (rtattrLen m rta) with
            -- `rtattr_type(rta)` is evaluated although `rta` is `NULL`
            | (none, _) => .error .nullDeref
            | (some rta, _) =>
                if rtattrType m rta = IFLA_INFO_DATA then (vlanAttrs m rta).map vlanText
                else .ok (unknownKindText strbuf)
          else .ok (unknownKindText strbuf)

/-- `rta_to_str_IFLA_LINKINFO`: the contents of `str` when it returns. -/
def rtaToStrIflaLinkinfo (m : Mem) (rootRta : ℕ) (str : List UInt8) (len : ℕ) :
    Except Halt (List UInt8) :=
  (linkinfoText m rootRta).map (snprintf str len)

/-! ### One round -/

/-- The number of bytes that are read as the value of a VLAN attribute of type `t`. -/
def vlanWidth (t : ℕ) : ℕ :=
  if t = IFLA_VLAN_ID then 2 else if t = IFLA_VLAN_FLAGS then 8
  else if t = IFLA_VLAN_PROTOCOL then 2 else 0

/-- The reader for the type `t` does not refuse an attribute of length `x`. -/
def Accepts (x t : ℕ) : Prop := vlanWidth t = 0 ∨ 4 ≤ x ∧ x ≤ 4 + vlanWidth t

/-- After an attribute of length `x`, with `b` bytes left from its start, the loop goes on. -/
def Continues (x : ℕ) (b : ℤ) : Prop := 0 < x ∧ (roundUp 4 x + 4 : ℤ) < b

instance (x t : ℕ) : Decidable (Accepts x t) := inferInstanceAs (Decidable (_ ∨ _))

instance (x : ℕ) (b : ℤ) : Decidable (Continues x b) := inferInstanceAs (Decidable (_ ∧ _))

/-- Store `value` in the field of the type `t`. -/
def InterfaceInfoVlan.assign (t value : ℕ) (vlaninfo : InterfaceInfoVlan) : InterfaceInfoVlan :=
  if t = IFLA_VLAN_ID then { vlaninfo with id := value }
  else if t = IFLA_VLAN_FLAGS then { vlaninfo with flags := value }
  else if t = IFLA_VLAN_PROTOCOL then { vlaninfo with proto := value }
  else vlaninfo

theorem InterfaceInfoVlan.assign_of_width {t : ℕ} (h : vlanWidth t = 0) (value : ℕ)
    (vlaninfo : InterfaceInfoVlan) : vlaninfo.assign t value = vlaninfo := by
  unfold vlanWidth at h
  unfold InterfaceInfoVlan.assign
  split_ifs at h ⊢
  rfl

/-- The value that is read for the VLAN attribute at `nrta`. -/
def vlanValue (m : Mem) (nrta : ℕ) : ℕ :=
  leNat (bytesAt m (nrta + 4) (vlanWidth (rtattrType m nrta)))

theorem vlanWidth_le (t : ℕ) : vlanWidth t ≤ 8 := by
  unfold vlanWidth
  split_ifs <;> norm_num

/-- A reader of the width of the type `t` refuses the lengths that are not accepted. -/
theorem map_rtattrRead (m : Mem) (nrta : ℕ) {n t : ℕ} (hn : vlanWidth t = n) (h0 : 0 < n)
    (f : ℕ → InterfaceInfoVlan) :
    (rtattrRead n m nrta).map f = if Accepts (rtattrLen m nrta) t then
      .ok (f (leNat (bytesAt m (nrta + 4) (vlanWidth t)))) else .error (.exit 1) := by
  have hle := vlanWidth_le t
  have hiff : Accepts (rtattrLen m nrta) t ↔ 4 ≤ rtattrLen m nrta ∧ rtattrLen m nrta ≤ 4 + n := by
    unfold Accepts
    omega
  rw [rtattrRead_eq_ite (by omega), hn]
  by_cases h : 4 ≤ rtattrLen m nrta ∧ rtattrLen m nrta ≤ 4 + n
  · rw [if_pos h, if_pos (hiff.mpr h)]
    rfl
  · rw [if_neg h, if_neg (mt hiff.mp h)]
    rfl

/-- A value is read exactly from the lengths the reader does not refuse. -/
theorem vlanAttr_eq (m : Mem) (nrta : ℕ) (vlaninfo : InterfaceInfoVlan) :
    vlanAttr m nrta vlaninfo = if Accepts (rtattrLen m nrta) (rtattrType m nrta) then
      .ok (vlaninfo.assign (rtattrType m nrta) (vlanValue m nrta)) else .error (.exit 1) := by
  simp only [vlanAttr, vlanValue, rtattrRead16bit, rtattrRead64bit]
  generalize rtattrType m nrta = t
  obtain rfl | h1 := eq_or_ne t IFLA_VLAN_ID
  · exact map_rtattrRead m nrta (n := 2) rfl (by norm_num) _
  obtain rfl | h2 := eq_or_ne t IFLA_VLAN_FLAGS
  · exact map_rtattrRead m nrta (n := 8) rfl (by norm_num) _
  obtain rfl | h5 := eq_or_ne t IFLA_VLAN_PROTOCOL
  · exact map_rtattrRead m nrta (n := 2) rfl (by norm_num) _
  · simp only [Accepts, vlanWidth, InterfaceInfoVlan.assign, if_neg h1, if_neg h2, if_neg h5,
      true_or, if_true]

/-- One round in integers: the reader of the value may end the process; otherwise the loop
goes on as long as more than a header is left after the attribute. -/
theorem vlanLoop_eq {m : Mem} {nrta : ℕ} {b : ℤ} {v : InterfaceInfoVlan} (hl : -4 ≤ b)
    (hu : b ≤ 65531) :
    vlanLoop m ⟨nrta, b, v⟩ =
      if Accepts (rtattrLen m nrta) (rtattrType m nrta) then
        if Continues (rtattrLen m nrta) b then
          .inl ⟨nrta + roundUp 4 (rtattrLen m nrta), b - roundUp 4 (rtattrLen m nrta),
            v.assign (rtattrType m nrta) (vlanValue m nrta)⟩
        else .inr (.ok (v.assign (rtattrType m nrta) (vlanValue m nrta)))
      else .inr (.error (.exit 1)) := by
  simp only [vlanLoop, vlanAttr_eq]
  by_cases ha : Accepts (rtattrLen m nrta) (rtattrType m nrta)
  swap
  · simp only [if_neg ha]
  simp only [if_pos ha, rtattrNext_eq (show -2 ^ 62 ≤ b by omega) (show b < 2 ^ 63 by omega)]
  by_cases hc : Continues (rtattrLen m nrta) b
  · have h := hc.2
    have := hc.1
    simp only [if_pos hc]
    rw [if_pos ⟨by omega, hc.1, .inr h⟩]
    simp only
    rw [if_neg (by omega)]
  · simp only [if_neg hc]
    by_cases hs : 0 < b ∧ 0 < rtattrLen m nrta ∧
        (b < roundUp 4 (rtattrLen m nrta) ∨ roundUp 4 (rtattrLen m nrta) + 4 < b)
    · have : b < roundUp 4 (rtattrLen m nrta) := hs.2.2.resolve_right fun h => hc ⟨hs.2.1, h⟩
      rw [if_pos hs]
      simp only
      rw [if_pos (by omega)]
    · rw [if_neg hs]

/-- Every round uses up at least four of the bytes that are left, so the loop ends. -/
theorem vlanLoop_exits (m : Mem) (nrta : ℕ) {b : ℤ} (v : InterfaceInfoVlan) (hl : -4 ≤ b)
    (hu : b ≤ 65531) : ∃ r, run (vlanLoop m) 16384 ⟨nrta, b, v⟩ = .inr r := by
  have hstep : ∀ s t : VlanLoop, (-4 ≤ s.nbuflen ∧ s.nbuflen ≤ 65531) → vlanLoop m s = .inl t →
      (-4 ≤ t.nbuflen ∧ t.nbuflen ≤ 65531) ∧ t.nbuflen.toNat / 4 < s.nbuflen.toNat / 4 := by
    rintro ⟨p, c, w⟩ t ⟨hl, hu⟩ ht
    have hle := le_roundUp (a := 4) (by norm_num) (rtattrLen m p)
    have hdvd := dvd_roundUp 4 (rtattrLen m p)
    rw [vlanLoop_eq hl hu] at ht
    split_ifs at ht with _ hc
    cases ht
    obtain ⟨hpos, hc⟩ := hc
    simp only at hl hu hc ⊢
    omega
  obtain ⟨k, hk, r, hr⟩ := exits_of_measure (s := ⟨nrta, b, v⟩) _ hstep ⟨hl, hu⟩
  exact ⟨r, run_mono (by simp only at hk; omega) hr⟩

theorem vlanAttrs_eq_iff {m : Mem} {rta : ℕ} {r : Except Halt InterfaceInfoVlan} :
    vlanAttrs m rta = r ↔
      Exits (vlanLoop m) ⟨rta + 4, rtattrLen m rta - 4, ⟨0, 0, 0⟩⟩ r := by
  have hlt := rtattrLen_lt m rta
  have hlen : toSigned 64 (rtattrPayloadLen m rta) = rtattrLen m rta - 4 := by
    unfold rtattrPayloadLen sizeofRtattr
    rw [toSigned_toUnsigned, toSigned_of_mem (by push_cast; omega) (by push_cast; omega)]
    rfl
  obtain ⟨r', hr'⟩ := vlanLoop_exits m (rta + 4) (b := rtattrLen m rta - 4) ⟨0, 0, 0⟩
    (by omega) (by omega)
  have heq : vlanAttrs m rta = r' := by
    simp only [vlanAttrs, hlen, rtattrPayloadPtr, sizeofRtattr, hr']
  rw [heq]
  exact ⟨fun h => h ▸ ⟨_, hr'⟩, fun h => Exits.unique ⟨_, hr'⟩ h⟩

/-! ### The loop, round by round -/

section rounds

variable {m : Mem} {nrta : ℕ} {b : ℤ} {v : InterfaceInfoVlan} {r : Except Halt InterfaceInfoVlan}

theorem vlanLoop_refused (hl : -4 ≤ b) (hu : b ≤ 65531)
    (ha : ¬ Accepts (rtattrLen m nrta) (rtattrType m nrta)) :
    Exits (vlanLoop m) ⟨nrta, b, v⟩ r ↔ r = .error (.exit 1) := by
  have h : vlanLoop m ⟨nrta, b, v⟩ = .inr (.error (.exit 1)) := by
    rw [vlanLoop_eq hl hu, if_neg ha]
  exact ⟨fun hx => hx.unique (.single h), fun hr => hr ▸ .single h⟩

theorem vlanLoop_last (hl : -4 ≤ b) (hu : b ≤ 65531)
    (ha : Accepts (rtattrLen m nrta) (rtattrType m nrta)) (hc : ¬ Continues (rtattrLen m nrta) b) :
    Exits (vlanLoop m) ⟨nrta, b, v⟩ r ↔
      r = .ok (v.assign (rtattrType m nrta) (vlanValue m nrta)) := by
  have h : vlanLoop m ⟨nrta, b, v⟩ =
      .inr (.ok (v.assign (rtattrType m nrta) (vlanValue m nrta))) := by
    rw [vlanLoop_eq hl hu, if_pos ha, if_neg hc]
  exact ⟨fun hx => hx.unique (.single h), fun hr => hr ▸ .single h⟩

theorem vlanLoop_next (hl : -4 ≤ b) (hu : b ≤ 65531)
    (ha : Accepts (rtattrLen m nrta) (rtattrType m nrta)) (hc : Continues (rtattrLen m nrta) b) :
    Exits (vlanLoop m) ⟨nrta, b, v⟩ r ↔
      Exits (vlanLoop m) ⟨nrta + roundUp 4 (rtattrLen m nrta),
        b - roundUp 4 (rtattrLen m nrta),
        v.assign (rtattrType m nrta) (vlanValue m nrta)⟩ r :=
  exits_iff_of_inl (by rw [vlanLoop_eq hl hu, if_pos ha, if_pos hc])

end rounds

/-! ### When the decoder returns -/

/-- The step from the kind to the attribute after it is made from the lengths that are not
a multiple of 4: the rounded length then exceeds the length it is compared with. -/
theorem rtattrNext_own_len (m : Mem) (rta : ℕ) :
    rtattrNext m rta (rtattrLen m rta) = if rtattrLen m rta % 4 = 0 then
      (none, (rtattrLen m rta : ℤ)) else (some (rta + roundUp 4 (rtattrLen m rta)),
        (rtattrLen m rta : ℤ) - roundUp 4 (rtattrLen m rta)) := by
  have hlt := rtattrLen_lt m rta
  have hle := le_roundUp (a := 4) (by norm_num) (rtattrLen m rta)
  have hup := roundUp_lt (a := 4) (by norm_num) (rtattrLen m rta)
  have hdvd := dvd_roundUp 4 (rtattrLen m rta)
  rw [rtattrNext_eq (by omega) (by omega)]
  by_cases h : rtattrLen m rta % 4 = 0
  · rw [if_pos h, if_neg (by omega)]
  · rw [if_neg h, if_pos (by omega)]

/-- **Results of the decoder**: what the attribute must look like for a text to be returned,
and which text it is. -/
theorem linkinfoText_eq_ok_iff {m : Mem} {rootRta : ℕ} {text : List UInt8} :
    linkinfoText m rootRta = .ok text ↔
      rtattrType m rootRta = IFLA_LINKINFO ∧ rtattrType m (rootRta + 4) = IFLA_INFO_KIND ∧
      (4 ≤ rtattrLen m (rootRta + 4) ∧ rtattrLen m (rootRta + 4) ≤ 104) ∧
      if cstr (bytesAt m (rootRta + 8) 99) = ascii "vlan" then
        rtattrLen m (rootRta + 4) % 4 ≠ 0 ∧
        let rta := rootRta + 4 + roundUp 4 (rtattrLen m (rootRta + 4))
        if rtattrType m rta = IFLA_INFO_DATA then
          ∃ v, Exits (vlanLoop m) ⟨rta + 4, rtattrLen m rta - 4, ⟨0, 0, 0⟩⟩ (.ok v) ∧
            text = vlanText v
        else text = unknownKindText (ascii "vlan")
      else text = unknownKindText (cstr (bytesAt m (rootRta + 8) 99)) := by
  unfold linkinfoText
  simp only [rtattrNestNext, rtattrPayloadPtr, sizeofRtattr]
  by_cases h18 : rtattrType m rootRta = IFLA_LINKINFO
  swap
  · simp [h18]
  by_cases h1 : rtattrType m (rootRta + 4) = IFLA_INFO_KIND
  swap
  · simp [h18, h1]
  have hle : rtattrPayloadLen m (rootRta + 4) ≤ 100 ↔
      4 ≤ rtattrLen m (rootRta + 4) ∧ rtattrLen m (rootRta + 4) ≤ 4 + 100 :=
    rtattrPayloadLen_le_iff (by norm_num)
  by_cases hlen : rtattrPayloadLen m (rootRta + 4) ≤ 100
  swap
  · have hread : rtattrReadStr m (rootRta + 4) 100 = .error (.exit 1) := if_pos (by omega)
    simp [h18, h1, ← hle, hlen, hread]
  have hread : rtattrReadStr m (rootRta + 4) 100 = .ok (cstr (bytesAt m (rootRta + 8) 99),
      align (rtattrPayloadLen m (rootRta + 4)) 4) := if_neg (by omega)
  simp only [h18, h1, ← hle, hlen, hread, true_and, ne_eq, not_true, if_false]
  by_cases hv : cstr (bytesAt m (rootRta + 8) 99) = ascii "vlan"
  swap
  · simp only [if_neg hv, Except.ok.injEq]
    exact eq_comm
  simp only [if_pos hv, rtattrNext_own_len]
  by_cases h4 : rtattrLen m (rootRta + 4) % 4 = 0
  · simp [h4]
  simp only [h4, if_false, not_false_iff, true_and]
  by_cases h2 : rtattrType m (rootRta + 4 + roundUp 4 (rtattrLen m (rootRta + 4))) = IFLA_INFO_DATA
  swap
  · simp only [if_neg h2, hv, Except.ok.injEq]
    exact eq_comm
  simp only [if_pos h2, ← vlanAttrs_eq_iff]
  cases vlanAttrs m (rootRta + 4 + roundUp 4 (rtattrLen m (rootRta + 4))) with
  | error e => simp [Except.map]
  | ok v => simp [Except.map, eq_comm]

end Hspp
