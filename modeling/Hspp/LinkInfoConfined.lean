import Hspp.VlanLeaks

/-! # Which link infos are decoded from their own bytes

The decoder takes every length it follows from the attribute, and checks none of them
against the attribute that encloses it.  What it shows is a function of the attribute's own
bytes exactly when none of three things can happen (`confined_iff`):

* the kind is a string that does not end in the attribute;
* the header of the data, or a part of it, lies behind the attribute;
* the loop over the VLAN attributes leaks (`Leaks`). -/

namespace Hspp

open CInt Loop Memory Records Text

/-- All memories that hold the attribute and on which the decoder returns give one string. -/
def Confined (root : Attr) : Prop :=
  ∀ (m₁ m₂ : Mem) (o : ℕ) (str : List UInt8) (len : ℕ) (out₁ out₂ : List UInt8),
    Holds m₁ o root.bytes → Holds m₂ o root.bytes →
    rtaToStrIflaLinkinfo m₁ o str len = .ok out₁ →
    rtaToStrIflaLinkinfo m₂ o str len = .ok out₂ → out₁ = out₂

/-- The attribute starts with a kind `"vlan"` from whose length the decoder finds the next
attribute. -/
structure NamesVlan (a : List UInt8) (klen : ℕ) : Prop where
  fits : Fits a 4 klen IFLA_INFO_KIND
  le : 4 ≤ klen ∧ klen ≤ 104
  mod : klen % 4 ≠ 0
  name : ascii "vlan" ++ [0] <+: a.drop 8

/-- Where an `IFLA_LINKINFO` of the bytes `a` lets bytes behind it through. -/
inductive LinkLeaks (a : List UInt8) : Prop
  /-- A kind without a NUL in the part of it that is copied and belongs to the attribute. -/
  | kind {klen : ℕ} (hf : Fits a 4 klen IFLA_INFO_KIND) (hle : 4 ≤ klen ∧ klen ≤ 104)
      (hcut : a.length < 107) (h0 : (0 : UInt8) ∉ a.drop 8)
  /-- A header behind the kind that ends behind the attribute and may be one of data. -/
  | data {klen dlen : ℕ} (hk : NamesVlan a klen) (hcut : a.length < 4 + roundUp 4 klen + 4)
      (hf : Fits a (4 + roundUp 4 klen) dlen IFLA_INFO_DATA)
  | vlan {klen dlen : ℕ} (hk : NamesVlan a klen) (hin : 4 + roundUp 4 klen + 4 ≤ a.length)
      (hf : Fits a (4 + roundUp 4 klen) dlen IFLA_INFO_DATA)
      (h : Leaks a (4 + roundUp 4 klen + 4) (dlen - 4))

/-! ### Texts and strings -/

/-- The text shows the three fields. -/
theorem vlanText_injective {v v' : InterfaceInfoVlan} (h : vlanText v = vlanText v') : v = v' := by
  obtain ⟨proto, id, flags⟩ := v
  obtain ⟨proto', id', flags'⟩ := v'
  simp only [vlanText, List.append_assoc] at h
  obtain ⟨rfl, hproto⟩ :=
    printNum_sep_inj (by norm_num) (by norm_num) (by decide) (List.append_cancel_left h)
  obtain ⟨rfl, hflags⟩ := printNum_sep_inj (by norm_num) (by norm_num) (by decide) hproto
  obtain ⟨rfl, -⟩ := printNum_append_inj (by norm_num) (by norm_num) (by decide) hflags
  rfl

theorem unknownKindText_injective {s s' : List UInt8}
    (h : unknownKindText s = unknownKindText s') : s = s' := by
  simp only [unknownKindText, List.append_assoc] at h
  exact List.append_cancel_right (List.append_cancel_left h)

theorem rtaToStrIflaLinkinfo_eq_ok_iff {m : Mem} {o : ℕ} {str out : List UInt8} {len : ℕ} :
    rtaToStrIflaLinkinfo m o str len = .ok out ↔
      ∃ text, linkinfoText m o = .ok text ∧ snprintf str len text = out := by
  rw [rtaToStrIflaLinkinfo]
  cases linkinfoText m o with
  | error e => simp [Except.map]
  | ok text => simp [Except.map]

/-- Texts differ just when the strings do, for some buffer. -/
theorem confined_iff_text (root : Attr) :
    Confined root ↔ ∀ (m₁ m₂ : Mem) (o : ℕ) (t₁ t₂ : List UInt8), Holds m₁ o root.bytes →
      Holds m₂ o root.bytes → linkinfoText m₁ o = .ok t₁ → linkinfoText m₂ o = .ok t₂ →
      t₁ = t₂ := by
  simp only [Confined, rtaToStrIflaLinkinfo_eq_ok_iff]
  constructor
  · intro h m₁ m₂ o t₁ t₂ h₁ h₂ ht₁ ht₂
    have hout := h m₁ m₂ o [] (t₁.length + t₂.length + 1) _ _ h₁ h₂ ⟨t₁, ht₁, rfl⟩ ⟨t₂, ht₂, rfl⟩
    exact snprintf_nil_inj (by omega) (by omega) hout
  · rintro h m₁ m₂ o str len _ _ h₁ h₂ ⟨t₁, ht₁, rfl⟩ ⟨t₂, ht₂, rfl⟩
    rw [h m₁ m₂ o t₁ t₂ h₁ h₂ ht₁ ht₂]

/-- In all memories that hold `a` the kind is `"vlan"`, of the same length. -/
theorem NamesVlan.kind {a : List UInt8} {klen : ℕ} (hk : NamesVlan a klen) {m : Mem} {o : ℕ}
    (hm : Holds m o a) : rtattrType m (o + 4) = IFLA_INFO_KIND ∧ rtattrLen m (o + 4) = klen ∧
      cstr (bytesAt m (o + 8) 99) = ascii "vlan" := by
  have hlen : (ascii "vlan" ++ [0]).length ≤ (a.drop 8).length := hk.name.length_le
  rw [List.length_drop] at hlen
  have h5 : (ascii "vlan" ++ [(0 : UInt8)]).length = 5 := rfl
  obtain ⟨hx, ht⟩ := hk.fits.eq (by omega) hm
  refine ⟨ht, hx, cstr_bytesAt ?_ (by decide) (by decide)⟩
  obtain ⟨rest, hrest⟩ := hk.name
  have := hm.drop (k := 8) (by omega)
  rw [← hrest, holds_append] at this
  exact this.1

/-- A string that ends in the attribute, or is cut at its 99 bytes there, is the same in all
memories. -/
theorem cstr_eq_of_seen {m₁ m₂ : Mem} {o : ℕ} {a : List UInt8} (h₁ : Holds m₁ o a)
    (h₂ : Holds m₂ o a) (hseen : 107 ≤ a.length ∨ (0 : UInt8) ∈ a.drop 8) :
    cstr (bytesAt m₁ (o + 8) 99) = cstr (bytesAt m₂ (o + 8) 99) := by
  obtain hlt | hge := Nat.lt_or_ge a.length 107
  swap
  · rw [value_eq_of_holds h₁ h₂ (by omega)]
  obtain ⟨s, t, hs, h0⟩ := List.eq_append_cons_of_mem (hseen.resolve_left (by omega))
  have hlen := congrArg List.length hs
  rw [List.length_drop, List.length_append, List.length_cons] at hlen
  have hstr : ∀ {m : Mem}, Holds m o a → cstr (bytesAt m (o + 8) 99) = s := by
    intro m hm
    have hd := hm.drop (k := 8) (by omega)
    rw [hs, List.append_cons, holds_append] at hd
    exact cstr_bytesAt hd.1 h0 (by omega)
  rw [hstr h₁, hstr h₂]

/-- A kind that is read as `"vlan"` from the attribute is there with its NUL. -/
theorem name_of_cstr {m : Mem} {o : ℕ} {a : List UInt8} (hm : Holds m o a)
    (hseen : 107 ≤ a.length ∨ (0 : UInt8) ∈ a.drop 8)
    (hv : cstr (bytesAt m (o + 8) 99) = ascii "vlan") : ascii "vlan" ++ [0] <+: a.drop 8 := by
  have hnul := cstr_nul_isPrefix (bytesAt m (o + 8) 99) (by rw [hv, length_bytesAt]; decide)
  rw [hv] at hnul
  obtain hlt | hge := Nat.lt_or_ge a.length 13
  · -- what the attribute has of the string would be a part of `"vlan"`, without a NUL
    exfalso
    have hpre := hm.take_drop_isPrefix 8 99
    rw [List.take_of_length_le (by rw [List.length_drop]; omega)] at hpre
    have hname : a.drop 8 <+: ascii "vlan" :=
      List.prefix_of_prefix_length_le hpre ((List.prefix_append _ _).trans hnul)
        (by rw [List.length_drop]; simp [ascii]; omega)
    exact absurd (hname.subset (hseen.resolve_left (by omega))) (by decide)
  · have hpre := hm.take_drop_isPrefix 8 99
    refine (List.prefix_of_prefix_length_le hnul hpre ?_).trans (List.take_prefix _ _)
    rw [List.length_take, List.length_drop]
    simp [ascii]
    omega

/-! ### No leak -/

/-- Without a leak two memories that hold the attribute give the same text. -/
theorem text_eq_of_not_leaks {a : List UInt8} (hno : ¬ LinkLeaks a) {m₁ m₂ : Mem} {o : ℕ}
    (h₁ : Holds m₁ o a) (h₂ : Holds m₂ o a) {t₁ t₂ : List UInt8}
    (ht₁ : linkinfoText m₁ o = .ok t₁) (ht₂ : linkinfoText m₂ o = .ok t₂) : t₁ = t₂ := by
  rw [linkinfoText_eq_ok_iff] at ht₁ ht₂
  obtain ⟨-, hk₁, hle₁, ht₁⟩ := ht₁
  obtain ⟨-, hk₂, hle₂, ht₂⟩ := ht₂
  have hf := fits_of_holds h₁ 4
  rw [hk₁] at hf
  have hseen : 107 ≤ a.length ∨ (0 : UInt8) ∈ a.drop 8 := by
    by_contra hc
    rw [not_or, not_le] at hc
    exact hno (.kind hf hle₁ hc.1 hc.2)
  have h8 : 8 ≤ a.length := by
    by_contra hlt
    rw [List.drop_eq_nil_of_le (by omega)] at hseen
    exact absurd (hseen.resolve_left (by omega)) List.not_mem_nil
  obtain ⟨hl₂, -⟩ := hf.eq h8 h₂
  rw [← cstr_eq_of_seen h₁ h₂ hseen] at ht₂
  by_cases hv : cstr (bytesAt m₁ (o + 8) 99) = ascii "vlan"
  swap
  · rw [if_neg hv] at ht₁ ht₂
    rw [ht₁, ht₂]
  rw [if_pos hv] at ht₁ ht₂
  obtain ⟨hmod, ht₁⟩ := ht₁
  obtain ⟨-, ht₂⟩ := ht₂
  have hk : NamesVlan a (rtattrLen m₁ (o + 4)) := ⟨hf, hle₁, hmod, name_of_cstr h₁ hseen hv⟩
  rw [hl₂] at ht₂
  simp only [Nat.add_assoc] at ht₁ ht₂
  set d := 4 + roundUp 4 (rtattrLen m₁ (o + 4)) with hd
  obtain hcut | hin := Nat.lt_or_ge a.length (d + 4)
  · have hunknown : ∀ {m : Mem}, Holds m o a → rtattrType m (o + d) ≠ IFLA_INFO_DATA := by
      intro m hm hdata
      have := fits_of_holds hm d
      rw [hdata] at this
      exact hno (.data hk hcut this)
    rw [if_neg (hunknown h₁)] at ht₁
    rw [if_neg (hunknown h₂)] at ht₂
    rw [ht₁, ht₂]
  · have hfd := fits_of_holds h₁ d
    obtain ⟨hdl, hdt⟩ := hfd.eq hin h₂
    rw [hdl, hdt] at ht₂
    by_cases hdata : rtattrType m₁ (o + d) = IFLA_INFO_DATA
    swap
    · rw [if_neg hdata] at ht₁ ht₂
      rw [ht₁, ht₂]
    rw [if_pos hdata] at ht₁ ht₂
    obtain ⟨v₁, hx₁, rfl⟩ := ht₁
    obtain ⟨v₂, hx₂, rfl⟩ := ht₂
    rw [hdata] at hfd
    have hlt := hfd.1
    rw [eq_of_not_leaks h₁ h₂ _ rfl (by omega) (by omega) (fun h => hno (.vlan hk hin hfd h))
      hx₁ hx₂]

/-! ### Two memories that tell a leak -/

/-- The texts of the two memories, which hold the attribute at `0`, differ. -/
def TellsText (m₁ m₂ : Mem) : Prop :=
  ∃ t₁ t₂, linkinfoText m₁ 0 = .ok t₁ ∧ linkinfoText m₂ 0 = .ok t₂ ∧ t₁ ≠ t₂

/-- With the kind in place, the text is decided by the attribute behind it. -/
theorem linkinfoText_of_namesVlan {a : List UInt8} {klen : ℕ} (hk : NamesVlan a klen) {m : Mem}
    (hm : Holds m 0 a) (h18 : rtattrType m 0 = IFLA_LINKINFO) {text : List UInt8} :
    linkinfoText m 0 = .ok text ↔
      if rtattrType m (4 + roundUp 4 klen) = IFLA_INFO_DATA then
        ∃ v, Exits (vlanLoop m) ⟨4 + roundUp 4 klen + 4,
          rtattrLen m (4 + roundUp 4 klen) - 4, ⟨0, 0, 0⟩⟩ (.ok v) ∧ text = vlanText v
      else text = unknownKindText (ascii "vlan") := by
  obtain ⟨ht, hl, hs⟩ := hk.kind hm
  simp only [Nat.zero_add] at ht hl hs
  have hle := hk.le
  rw [linkinfoText_eq_ok_iff]
  simp only [Nat.zero_add, h18, ht, hl, hs, if_true, true_and, hle, hk.mod, ne_eq, not_false_iff]

/-- A kind that does not end in the attribute is followed by as much of the fill as is
copied. -/
theorem tellsText_of_kind {a : List UInt8} {klen : ℕ} (hf : Fits a 4 klen IFLA_INFO_KIND)
    (hle : 4 ≤ klen ∧ klen ≤ 104) (hcut : a.length < 107) (h0 : (0 : UInt8) ∉ a.drop 8)
    (h18 : ∀ m, Holds m 0 a → rtattrType m 0 = IFLA_LINKINFO) :
    TellsText (fill 0xfe 4 (header klen IFLA_INFO_KIND) a)
      (fill 0xff 4 (header klen IFLA_INFO_KIND) a) := by
  have hfill (c : UInt8) : ConstFrom (fill c 4 (header klen IFLA_INFO_KIND) a)
      (max a.length 8) c := constFrom_fill (Nat.le_max_left _ _) (by simp)
  have htext (c : UInt8) (hc : c ≠ 0) :
      linkinfoText (fill c 4 (header klen IFLA_INFO_KIND) a) 0 =
        .ok (unknownKindText (bytesAt (fill c 4 (header klen IFLA_INFO_KIND) a) 8 99)) := by
    have hm := holds_fill c 4 (header klen IFLA_INFO_KIND) a
    obtain ⟨hl, ht⟩ := fill_header c hf
    have hstr : cstr (bytesAt (fill c 4 (header klen IFLA_INFO_KIND) a) 8 99) =
        bytesAt (fill c 4 (header klen IFLA_INFO_KIND) a) 8 99 := by
      refine cstr_of_not_mem fun hmem => ?_
      obtain ⟨i, hi, hzero⟩ := List.mem_iff_getElem.mp hmem
      rw [getElem_bytesAt] at hzero
      obtain hin | hout := Nat.lt_or_ge (8 + i) a.length
      · have hget := hm.getElem hin
        rw [Nat.zero_add, hzero] at hget
        refine h0 (List.mem_iff_getElem.mpr ⟨i, by rw [List.length_drop]; omega, ?_⟩)
        rw [List.getElem_drop, hget]
      · exact hc ((hfill c (8 + i) (by omega)).symm.trans hzero)
    rw [linkinfoText_eq_ok_iff]
    refine ⟨h18 _ hm, ht, by rwa [hl], ?_⟩
    rw [Nat.zero_add, hstr, if_neg]
    intro hv
    have := congrArg List.length hv
    rw [length_bytesAt] at this
    exact absurd this (by decide)
  refine ⟨_, _, htext 0xfe (by decide), htext 0xff (by decide), fun heq => ?_⟩
  have := agree_iff.mpr (unknownKindText_injective heq) 98 (by norm_num)
  rw [hfill 0xfe _ (by omega), hfill 0xff _ (by omega)] at this
  exact absurd this (by decide)

/-- A header behind the kind that may or may not be one of data decides between two texts. -/
theorem tellsText_of_data {a : List UInt8} {klen dlen : ℕ} (hk : NamesVlan a klen)
    (hcut : a.length < 4 + roundUp 4 klen + 4)
    (hf : Fits a (4 + roundUp 4 klen) dlen IFLA_INFO_DATA)
    (h18 : ∀ m, Holds m 0 a → rtattrType m 0 = IFLA_LINKINFO) :
    TellsText (fill 0xfe (4 + roundUp 4 klen) (header dlen IFLA_INFO_DATA) a)
      (fill 0xfe 0 [] a) := by
  have h₁ := holds_fill 0xfe (4 + roundUp 4 klen) (header dlen IFLA_INFO_DATA) a
  have h₂ := holds_fill 0xfe 0 [] a
  obtain ⟨hl, ht⟩ := fill_header 0xfe hf
  refine ⟨vlanText ⟨0, 0, 0⟩, unknownKindText (ascii "vlan"), ?_, ?_, by decide⟩
  · have hfill : ConstFrom (fill 0xfe (4 + roundUp 4 klen) (header dlen IFLA_INFO_DATA) a)
        (4 + roundUp 4 klen + 4) 0xfe := constFrom_fill hcut.le (by rw [length_header])
    have hlt := hf.1
    rw [linkinfoText_of_namesVlan hk h₁ (h18 _ h₁), if_pos ht, hl]
    exact ⟨_, exits_of_constFrom hfill (by decide) _ rfl (by omega) (by omega) (by omega), rfl⟩
  · have htype : rtattrType (fill 0xfe 0 [] a) (4 + roundUp 4 klen) ≠ IFLA_INFO_DATA := by
      have hfill : ConstFrom (fill 0xfe 0 [] a) a.length 0xfe := constFrom_fill le_rfl (by simp)
      rw [rtattrType_eq_toNat, hfill (4 + roundUp 4 klen + 3) (by omega),
        show (0xfe : UInt8).toNat = 254 from rfl, IFLA_INFO_DATA]
      omega
    rw [linkinfoText_of_namesVlan hk h₂ (h18 _ h₂), if_neg htype]

/-- A leak leads to two memories with different texts. -/
theorem exists_tellsText {a : List UInt8} (h : LinkLeaks a)
    (h18 : ∀ m, Holds m 0 a → rtattrType m 0 = IFLA_LINKINFO) :
    ∃ m₁ m₂, Holds m₁ 0 a ∧ Holds m₂ 0 a ∧ TellsText m₁ m₂ := by
  cases h with
  | kind hf hle hcut h0 =>
      exact ⟨_, _, holds_fill _ _ _ _, holds_fill _ _ _ _, tellsText_of_kind hf hle hcut h0 h18⟩
  | data hk hcut hf =>
      exact ⟨_, _, holds_fill _ _ _ _, holds_fill _ _ _ _, tellsText_of_data hk hcut hf h18⟩
  | vlan hk hin hf hleaks =>
      have hlt := hf.1
      obtain ⟨m₁, m₂, h₁, h₂, htell⟩ := exists_ne_of_leaks hleaks (by omega) (by omega)
      obtain ⟨v₁, v₂, hx₁, hx₂, hne⟩ := htell ⟨0, 0, 0⟩
      obtain ⟨⟨hl₁, ht₁⟩, hl₂, ht₂⟩ := shared_of_fits h₁ h₂ hf hin
      refine ⟨m₁, m₂, h₁, h₂, vlanText v₁, vlanText v₂, ?_, ?_, mt vlanText_injective hne⟩
      · rw [linkinfoText_of_namesVlan hk h₁ (h18 _ h₁), if_pos ht₁, hl₁]
        exact ⟨v₁, hx₁, rfl⟩
      · rw [linkinfoText_of_namesVlan hk h₂ (h18 _ h₂), if_pos ht₂, hl₂]
        exact ⟨v₂, hx₂, rfl⟩

/-- **Confinement**: the string depends on the attribute's own bytes only, exactly when the
attribute does not leak. -/
theorem confined_iff (root : Attr) (h : root.type = IFLA_LINKINFO) :
    Confined root ↔ ¬ LinkLeaks root.bytes := by
  rw [confined_iff_text]
  constructor
  · intro hc hleaks
    obtain ⟨m₁, m₂, h₁, h₂, t₁, t₂, ht₁, ht₂, hne⟩ :=
      exists_tellsText hleaks fun m hm => (Attr.rtattrType_eq hm).trans h
    exact hne (hc m₁ m₂ 0 t₁ t₂ h₁ h₂ ht₁ ht₂)
  · intro hno m₁ m₂ o t₁ t₂ h₁ h₂ ht₁ ht₂
    exact text_eq_of_not_leaks hno h₁ h₂ ht₁ ht₂

/-- A link info of the kind `"vlan"` without data. -/
def kindOnly : Attr :=
  ⟨[16, 0, 18, 0, 9, 0, 1, 0, 118, 108, 97, 110, 0, 0, 0, 0], [], by decide, by decide, by decide⟩

/-- The data is taken from what follows the attribute. -/
theorem not_confined_kindOnly : ¬ Confined kindOnly := by
  intro h
  have := h (fill 0 16 [] kindOnly.bytes) (fill 0 16 [4, 0, 2, 0] kindOnly.bytes) 0 [] 100
    (ascii "UNKNOWN LINK KIND (vlan)" ++ [0])
    (ascii "IFLA_LINKINFO vlan(id:0, proto:0x0000, flags:0x00000000)" ++ [0])
    (holds_fill _ _ _ _) (holds_fill _ _ _ _) (by decide) (by decide)
  exact absurd this (by decide)

theorem confined_iff_kindOnly : Confined kindOnly ↔ ¬ LinkLeaks kindOnly.bytes :=
  confined_iff kindOnly (by decide)

end Hspp
