import Hspp.LinkInfo

/-! # What the loop over the VLAN attributes sees of the bytes behind the attribute

Let the bytes `a` be stored, with anything behind them.  The loop reads headers and values
at offsets it takes from the attributes, and `a` may end before, in or behind each of them.
`Leaks a n b` says that the loop, at offset `n` of `a` with `b` bytes left by its own count,
comes to something behind `a` on which its result depends:

* a value that is cut off, in a round from which the loop can still end (`Passes`);
* a header that is cut off, and that can be completed to one which is read for its value
  or followed by another round.

Without a leak all memories that hold `a` give the same result (`eq_of_not_leaks`), and with
one there are two that give different results (`exists_ne_of_leaks`): the bytes behind `a`
are then all `0xfe`, or all `0xff`, apart from the headers the leak is about. -/

namespace Hspp

open CInt Loop Memory Text

/-! ### Headers that are partly seen -/

/-- An attribute header with the given length and type. -/
def header (len type : ℕ) : List UInt8 :=
  [UInt8.ofNat len, UInt8.ofNat (len / 256), UInt8.ofNat type, UInt8.ofNat (type / 256)]

/-- The bytes of `a` do not rule out a header with this length and type at offset `h`. -/
def Fits (a : List UInt8) (h len type : ℕ) : Prop :=
  len < 2 ^ 16 ∧ type < 2 ^ 16 ∧ (a.drop h).take 4 <+: header len type

@[simp] theorem length_header (len type : ℕ) : (header len type).length = 4 := rfl

theorem bytesAt_four (m : Mem) (o : ℕ) :
    bytesAt m o 4 = [m o, m (o + 1), m (o + 2), m (o + 3)] := rfl

theorem bytesAt_header (m : Mem) (o : ℕ) :
    bytesAt m o 4 = header (rtattrLen m o) (rtattrType m o) := by
  rw [bytesAt_four, rtattrLen_eq_toNat, rtattrType_eq_toNat]
  simp only [header, List.cons.injEq, and_true, ← UInt8.toNat_inj, UInt8.toNat_ofNat']
  have := (m o).toNat_lt
  have := (m (o + 1)).toNat_lt
  have := (m (o + 2)).toNat_lt
  have := (m (o + 3)).toNat_lt
  omega

theorem holds_header {m : Mem} {o len type : ℕ} (hl : len < 2 ^ 16) (ht : type < 2 ^ 16)
    (h : Holds m o (header len type)) : rtattrLen m o = len ∧ rtattrType m o = type := by
  change bytesAt m o 4 = _ at h
  rw [bytesAt_four] at h
  simp only [header, List.cons.injEq, and_true, ← UInt8.toNat_inj, UInt8.toNat_ofNat'] at h
  rw [rtattrLen_eq_toNat, rtattrType_eq_toNat]
  omega

/-- Whatever is behind `a`, it makes a header that fits. -/
theorem fits_of_holds {m : Mem} {o : ℕ} {a : List UInt8} (hm : Holds m o a) (h : ℕ) :
    Fits a h (rtattrLen m (o + h)) (rtattrType m (o + h)) := by
  refine ⟨rtattrLen_lt _ _, rtattrType_lt _ _, ?_⟩
  rw [← bytesAt_header]
  exact hm.take_drop_isPrefix h 4

/-- A header that lies inside `a` fits only what it is. -/
theorem Fits.eq {m : Mem} {o h len type : ℕ} {a : List UInt8} (hf : Fits a h len type)
    (hle : h + 4 ≤ a.length) (hm : Holds m o a) :
    rtattrLen m (o + h) = len ∧ rtattrType m (o + h) = type := by
  obtain ⟨hl, ht, hp⟩ := hf
  have heq := hp.eq_of_length (by simp; omega)
  apply holds_header hl ht
  have := hm.take_drop_isPrefix h 4
  rw [heq] at this
  have := this.eq_of_length (by simp)
  rw [this]
  exact holds_bytesAt _ _ _

/-! ### Leaks -/

variable {a : List UInt8}

/-- From offset `n` with `b` bytes left, no header inside `a` makes a reader refuse. -/
inductive Passes (a : List UInt8) : ℕ → ℤ → Prop
  | cut {n : ℕ} {b : ℤ} (hcut : a.length < n + 4) : Passes a n b
  | last {n : ℕ} {b : ℤ} {x t : ℕ} (hf : Fits a n x t) (hin : n + 4 ≤ a.length)
      (ha : Accepts x t) (hc : ¬ Continues x b) : Passes a n b
  | next {n : ℕ} {b : ℤ} {x t : ℕ} (hf : Fits a n x t) (hin : n + 4 ≤ a.length)
      (ha : Accepts x t) (hc : Continues x b) (h : Passes a (n + roundUp 4 x) (b - roundUp 4 x)) :
      Passes a n b

/-- From offset `n` with `b` bytes left, the loop comes to bytes behind `a` that matter. -/
inductive Leaks (a : List UInt8) : ℕ → ℤ → Prop
  /-- A value that ends behind `a`. -/
  | value {n : ℕ} {b : ℤ} {x t : ℕ} (hf : Fits a n x t) (hin : n + 4 ≤ a.length)
      (ha : Accepts x t) (hcut : a.length < n + 4 + vlanWidth t)
      (h : Continues x b → Passes a (n + roundUp 4 x) (b - roundUp 4 x)) : Leaks a n b
  /-- A header that ends behind `a` and may be one that has a value. -/
  | type {n : ℕ} {b : ℤ} {x t : ℕ} (hf : Fits a n x t) (hcut : a.length < n + 4)
      (ha : Accepts x t) (hw : 0 < vlanWidth t) : Leaks a n b
  /-- A header that ends behind `a` and may be followed by another round. -/
  | len {n : ℕ} {b : ℤ} {x t : ℕ} (hf : Fits a n x t) (hcut : a.length < n + 4)
      (hc : Continues x b) : Leaks a n b
  | next {n : ℕ} {b : ℤ} {x t : ℕ} (hf : Fits a n x t) (ha : Accepts x t)
      (hin : n + 4 + vlanWidth t ≤ a.length) (hc : Continues x b)
      (h : Leaks a (n + roundUp 4 x) (b - roundUp 4 x)) : Leaks a n b

/-- Another round starts further on, with less left. -/
theorem Continues.bounds {x : ℕ} {b : ℤ} (hc : Continues x b) (hu : b ≤ 65531) :
    4 ≤ roundUp 4 x ∧ -4 ≤ b - roundUp 4 x ∧ b - roundUp 4 x ≤ 65531 ∧
      (b - roundUp 4 x).toNat < b.toNat := by
  have hle := le_roundUp (a := 4) (by norm_num) x
  have hdvd := dvd_roundUp 4 x
  obtain ⟨h0, hb⟩ := hc
  omega

/-- A loop that ends without a refusal has passed all headers inside `a`. -/
theorem passes_of_exits {m : Mem} {o : ℕ} (hm : Holds m o a) {r : InterfaceInfoVlan} (k : ℕ) :
    ∀ {n : ℕ} {b : ℤ} {v : InterfaceInfoVlan}, b.toNat = k → -4 ≤ b → b ≤ 65531 →
    Exits (vlanLoop m) ⟨o + n, b, v⟩ (.ok r) → Passes a n b := by
  induction k using Nat.strong_induction_on with
  | _ k ih =>
      intro n b v hk hl hu hx
      obtain hcut | hin := Nat.lt_or_ge a.length (n + 4)
      · exact .cut hcut
      have hf := fits_of_holds hm n
      by_cases ha : Accepts (rtattrLen m (o + n)) (rtattrType m (o + n))
      swap
      · rw [vlanLoop_refused hl hu ha] at hx
        cases hx
      by_cases hc : Continues (rtattrLen m (o + n)) b
      · rw [vlanLoop_next hl hu ha hc, Nat.add_assoc] at hx
        obtain ⟨_, hl', hu', hlt⟩ := hc.bounds hu
        exact .next hf hin ha hc (ih _ (hk ▸ hlt) rfl hl' hu' hx)
      · exact .last hf hin ha hc

/-- A value inside `a` is the same in all memories that hold `a`. -/
theorem value_eq_of_holds {m₁ m₂ : Mem} {o : ℕ} (h₁ : Holds m₁ o a) (h₂ : Holds m₂ o a) {n w : ℕ}
    (hin : n + w ≤ a.length) : bytesAt m₁ (o + n) w = bytesAt m₂ (o + n) w := by
  have hlen : w ≤ (a.drop n).length := by
    rw [List.length_drop]
    omega
  rw [(h₁.drop (by omega)).bytesAt_eq hlen, (h₂.drop (by omega)).bytesAt_eq hlen]

/-- **No leak**: all memories that hold `a` give the same result. -/
theorem eq_of_not_leaks {m₁ m₂ : Mem} {o : ℕ} (h₁ : Holds m₁ o a) (h₂ : Holds m₂ o a)
    {r₁ r₂ : InterfaceInfoVlan} (k : ℕ) :
    ∀ {n : ℕ} {b : ℤ} {v : InterfaceInfoVlan}, b.toNat = k → -4 ≤ b → b ≤ 65531 →
    ¬ Leaks a n b → Exits (vlanLoop m₁) ⟨o + n, b, v⟩ (.ok r₁) →
    Exits (vlanLoop m₂) ⟨o + n, b, v⟩ (.ok r₂) → r₁ = r₂ := by
  induction k using Nat.strong_induction_on with
  | _ k ih =>
      intro n b v hk hl hu hno hx₁ hx₂
      obtain hcut | hin := Nat.lt_or_ge a.length (n + 4)
      · -- every completion of the header is skipped, and the loop stops there
        have hv : ∀ {m : Mem} {r : InterfaceInfoVlan}, Holds m o a →
            Exits (vlanLoop m) ⟨o + n, b, v⟩ (.ok r) → r = v := by
          intro m r hm hx
          have hf := fits_of_holds hm n
          by_cases ha : Accepts (rtattrLen m (o + n)) (rtattrType m (o + n))
          swap
          · rw [vlanLoop_refused hl hu ha] at hx
            cases hx
          have hw : vlanWidth (rtattrType m (o + n)) = 0 :=
            Nat.eq_zero_of_not_pos fun hw => hno (.type hf hcut ha hw)
          rw [vlanLoop_last hl hu ha fun hc => hno (.len hf hcut hc), v.assign_of_width hw] at hx
          cases hx
          rfl
        rw [hv h₁ hx₁, hv h₂ hx₂]
      obtain ⟨x, t, hf⟩ : ∃ x t, Fits a n x t := ⟨_, _, fits_of_holds h₁ n⟩
      obtain ⟨hl₁, ht₁⟩ := hf.eq hin h₁
      obtain ⟨hl₂, ht₂⟩ := hf.eq hin h₂
      by_cases ha : Accepts x t
      swap
      · rw [vlanLoop_refused hl hu (by rwa [hl₁, ht₁])] at hx₁
        cases hx₁
      obtain hcut | hseen := Nat.lt_or_ge a.length (n + 4 + vlanWidth t)
      · exfalso
        refine hno (.value hf hin ha hcut fun hc => ?_)
        obtain ⟨_, hl', hu', _⟩ := hc.bounds hu
        rw [vlanLoop_next hl hu (by rwa [hl₁, ht₁]) (by rwa [hl₁]), hl₁, Nat.add_assoc] at hx₁
        exact passes_of_exits h₁ _ rfl hl' hu' hx₁
      have hval : vlanValue m₁ (o + n) = vlanValue m₂ (o + n) := by
        rw [vlanValue, vlanValue, ht₁, ht₂, Nat.add_assoc, value_eq_of_holds h₁ h₂ hseen]
      by_cases hc : Continues x b
      · rw [vlanLoop_next hl hu (by rwa [hl₁, ht₁]) (by rwa [hl₁]), hl₁, ht₁, Nat.add_assoc] at hx₁
        rw [vlanLoop_next hl hu (by rwa [hl₂, ht₂]) (by rwa [hl₂]), hl₂, ht₂, ← hval,
          Nat.add_assoc] at hx₂
        obtain ⟨_, hl', hu', hlt⟩ := hc.bounds hu
        exact ih _ (hk ▸ hlt) rfl hl' hu' (fun h => hno (.next hf ha hseen hc h)) hx₁ hx₂
      · rw [vlanLoop_last hl hu (by rwa [hl₁, ht₁]) (by rwa [hl₁]), ht₁] at hx₁
        rw [vlanLoop_last hl hu (by rwa [hl₂, ht₂]) (by rwa [hl₂]), ht₂, ← hval] at hx₂
        exact Except.ok.inj (hx₁.trans hx₂.symm)

/-! ### Two memories that tell a leak -/

/-- All bytes from `k` on are `c`. -/
def ConstFrom (m : Mem) (k : ℕ) (c : UInt8) : Prop := ∀ i, k ≤ i → m i = c

/-- The bytes `a`, behind them `bs` at offset `h` as far as it is not in `a`, and `c`
everywhere else. -/
def fill (c : UInt8) (h : ℕ) (bs a : List UInt8) : Mem := write (write (fun _ => c) h bs) 0 a

theorem constFrom_fill {c : UInt8} {h k : ℕ} {bs : List UInt8} (ha : a.length ≤ k)
    (hb : h + bs.length ≤ k) : ConstFrom (fill c h bs a) k c := by
  intro i hi
  rw [fill, write_of_ge _ (by omega), write_of_ge _ (by omega)]

theorem holds_fill (c : UInt8) (h : ℕ) (bs a : List UInt8) : Holds (fill c h bs a) 0 a :=
  holds_write _ _ _

/-- Values that end where the memories are filled differ. -/
theorem value_ne_of_constFrom {m₁ m₂ : Mem} {c₁ c₂ : UInt8} {k p w : ℕ} (hc : c₁ ≠ c₂)
    (h₁ : ConstFrom m₁ k c₁) (h₂ : ConstFrom m₂ k c₂) (hw : 0 < w) (hk : k < p + w) :
    leNat (bytesAt m₁ p w) ≠ leNat (bytesAt m₂ p w) := by
  intro h
  have heq := leNat_inj (by simp) h
  have hg₁ := getElem_bytesAt m₁ w p (w - 1) (by simpa using hw)
  have hg₂ := getElem_bytesAt m₂ w p (w - 1) (by simpa using hw)
  simp only [heq] at hg₁
  rw [hg₁, h₁ _ (by omega), h₂ _ (by omega)] at hg₂
  exact hc hg₂

/-- Headers that end in a part filled with large bytes are skipped: nothing is stored from
there on. -/
theorem exits_of_constFrom {m : Mem} {c : UInt8} {p : ℕ} (hm : ConstFrom m p c)
    (hc : 0xfe ≤ c.toNat) (k : ℕ) :
    ∀ {n : ℕ} {b : ℤ} {v : InterfaceInfoVlan}, b.toNat = k → p ≤ n + 3 → -4 ≤ b → b ≤ 65531 →
    Exits (vlanLoop m) ⟨n, b, v⟩ (.ok v) := by
  induction k using Nat.strong_induction_on with
  | _ k ih =>
      intro n b v hk hp hl hu
      have ht : 6 ≤ rtattrType m n := by
        rw [rtattrType_eq_toNat, hm (n + 3) hp]
        omega
      have hw : vlanWidth (rtattrType m n) = 0 := by
        unfold vlanWidth IFLA_VLAN_ID IFLA_VLAN_FLAGS IFLA_VLAN_PROTOCOL
        rw [if_neg (by omega), if_neg (by omega), if_neg (by omega)]
      by_cases hcont : Continues (rtattrLen m n) b
      · rw [vlanLoop_next hl hu (.inl hw) hcont, v.assign_of_width hw]
        obtain ⟨_, hl', hu', hlt⟩ := hcont.bounds hu
        exact ih _ (hk ▸ hlt) rfl (by omega) hl' hu'
      · rw [vlanLoop_last hl hu (.inl hw) hcont, v.assign_of_width hw]

/-- The field for the type `t`. -/
def InterfaceInfoVlan.get (t : ℕ) (v : InterfaceInfoVlan) : ℕ :=
  if t = IFLA_VLAN_ID then v.id else if t = IFLA_VLAN_FLAGS then v.flags else v.proto

theorem InterfaceInfoVlan.get_assign {t t' : ℕ} (hw : 0 < vlanWidth t) (x : ℕ)
    (v : InterfaceInfoVlan) : (v.assign t' x).get t = if t = t' then x else v.get t := by
  have ht : t = 1 ∨ t = 2 ∨ t = 5 := by
    unfold vlanWidth IFLA_VLAN_ID IFLA_VLAN_FLAGS IFLA_VLAN_PROTOCOL at hw
    split_ifs at hw <;> omega
  unfold assign get IFLA_VLAN_ID IFLA_VLAN_FLAGS IFLA_VLAN_PROTOCOL
  rcases ht with rfl | rfl | rfl <;> split_ifs <;> first | rfl | omega

/-- The two values differ in a field whose next value could not be read inside `a`. -/
def Apart (k n : ℕ) (v₁ v₂ : InterfaceInfoVlan) : Prop :=
  ∃ t, 0 < vlanWidth t ∧ v₁.get t ≠ v₂.get t ∧ k < n + vlanWidth t

theorem Apart.ne {k n : ℕ} {v₁ v₂ : InterfaceInfoVlan} (h : Apart k n v₁ v₂) : v₁ ≠ v₂ := by
  obtain ⟨t, _, hne, _⟩ := h
  exact fun heq => hne (heq ▸ rfl)

theorem Apart.mono {k n n' : ℕ} {v₁ v₂ : InterfaceInfoVlan} (h : Apart k n v₁ v₂) (hn : n ≤ n') :
    Apart k n' v₁ v₂ := by
  obtain ⟨t, hw, hne, hk⟩ := h
  exact ⟨t, hw, hne, by omega⟩

section pair

variable {m₁ m₂ : Mem} {c₁ c₂ : UInt8} {k : ℕ}

/-- Two memories that differ from `k` on, each with one large byte there. -/
structure Filled (m₁ m₂ : Mem) (c₁ c₂ : UInt8) (k : ℕ) : Prop where
  left : ConstFrom m₁ k c₁
  right : ConstFrom m₂ k c₂
  ne : c₁ ≠ c₂
  left_le : 0xfe ≤ c₁.toNat
  right_le : 0xfe ≤ c₂.toNat

/-- The loop ends in both memories, with different results. -/
def Tells (m₁ m₂ : Mem) (n : ℕ) (b : ℤ) (v₁ v₂ : InterfaceInfoVlan) : Prop :=
  ∃ r₁ r₂, Exits (vlanLoop m₁) ⟨n, b, v₁⟩ (.ok r₁) ∧ Exits (vlanLoop m₂) ⟨n, b, v₂⟩ (.ok r₂) ∧
    r₁ ≠ r₂

theorem tells_of_filled (hm : Filled m₁ m₂ c₁ c₂ k) {n : ℕ} {b : ℤ} {v₁ v₂ : InterfaceInfoVlan}
    (hk : k ≤ n + 3) (hl : -4 ≤ b) (hu : b ≤ 65531) (hne : v₁ ≠ v₂) : Tells m₁ m₂ n b v₁ v₂ :=
  ⟨v₁, v₂, exits_of_constFrom hm.left hm.left_le _ rfl hk hl hu,
    exits_of_constFrom hm.right hm.right_le _ rfl hk hl hu, hne⟩

/-- Both memories have the header `(x, t)` at `n`. -/
def Shared (m₁ m₂ : Mem) (n x t : ℕ) : Prop :=
  (rtattrLen m₁ n = x ∧ rtattrType m₁ n = t) ∧ rtattrLen m₂ n = x ∧ rtattrType m₂ n = t

/-- One round over a shared header: what is told afterwards is told before. -/
theorem tells_of_shared {n x t : ℕ} {b : ℤ} {v₁ v₂ : InterfaceInfoVlan}
    (h : Shared m₁ m₂ n x t) (hl : -4 ≤ b) (hu : b ≤ 65531) (ha : Accepts x t)
    (hlast : ¬ Continues x b → v₁.assign t (vlanValue m₁ n) ≠ v₂.assign t (vlanValue m₂ n))
    (hnext : Continues x b → Tells m₁ m₂ (n + roundUp 4 x) (b - roundUp 4 x)
      (v₁.assign t (vlanValue m₁ n)) (v₂.assign t (vlanValue m₂ n))) :
    Tells m₁ m₂ n b v₁ v₂ := by
  obtain ⟨⟨hl₁, ht₁⟩, hl₂, ht₂⟩ := h
  by_cases hc : Continues x b
  · obtain ⟨r₁, r₂, hx₁, hx₂, hne⟩ := hnext hc
    refine ⟨r₁, r₂, ?_, ?_, hne⟩
    · rwa [vlanLoop_next hl hu (by rwa [hl₁, ht₁]) (by rwa [hl₁]), hl₁, ht₁]
    · rwa [vlanLoop_next hl hu (by rwa [hl₂, ht₂]) (by rwa [hl₂]), hl₂, ht₂]
  · refine ⟨_, _, ?_, ?_, hlast hc⟩
    · rw [vlanLoop_last hl hu (by rwa [hl₁, ht₁]) (by rwa [hl₁]), ht₁]
    · rw [vlanLoop_last hl hu (by rwa [hl₂, ht₂]) (by rwa [hl₂]), ht₂]

/-- A value that ends in the filled part sets the fields apart. -/
theorem apart_of_value (hm : Filled m₁ m₂ c₁ c₂ k) {n x t : ℕ} (h : Shared m₁ m₂ n x t)
    (hw : 0 < vlanWidth t) (hk : k < n + 4 + vlanWidth t) (v₁ v₂ : InterfaceInfoVlan) :
    Apart k (n + 4) (v₁.assign t (vlanValue m₁ n)) (v₂.assign t (vlanValue m₂ n)) := by
  refine ⟨t, hw, ?_, hk⟩
  rw [InterfaceInfoVlan.get_assign hw, InterfaceInfoVlan.get_assign hw, if_pos rfl, if_pos rfl,
    vlanValue, vlanValue, h.1.2, h.2.2]
  exact value_ne_of_constFrom hm.ne hm.left hm.right hw hk

/-- A round over a shared header keeps fields apart. -/
theorem Apart.assign (hm : Filled m₁ m₂ c₁ c₂ k) {n x t : ℕ} (h : Shared m₁ m₂ n x t)
    {v₁ v₂ : InterfaceInfoVlan} (hv : Apart k n v₁ v₂) :
    Apart k (n + 4) (v₁.assign t (vlanValue m₁ n)) (v₂.assign t (vlanValue m₂ n)) := by
  obtain ⟨s, hw, hne, hk⟩ := hv
  obtain rfl | hs := eq_or_ne s t
  · exact apart_of_value hm h hw (by omega) v₁ v₂
  · refine ⟨s, hw, ?_, by omega⟩
    rwa [InterfaceInfoVlan.get_assign hw, InterfaceInfoVlan.get_assign hw, if_neg hs, if_neg hs]

end pair

/-- A header inside `a` is shared by the memories that hold `a`. -/
theorem shared_of_fits {m₁ m₂ : Mem} (h₁ : Holds m₁ 0 a) (h₂ : Holds m₂ 0 a) {n x t : ℕ}
    (hf : Fits a n x t) (hin : n + 4 ≤ a.length) : Shared m₁ m₂ n x t := by
  have e₁ := hf.eq hin h₁
  have e₂ := hf.eq hin h₂
  rw [Nat.zero_add] at e₁ e₂
  exact ⟨e₁, e₂⟩

/-- Fields that are apart stay apart where the loop passes. -/
theorem tells_of_passes {m₁ m₂ : Mem} {c₁ c₂ : UInt8} (hm : Filled m₁ m₂ c₁ c₂ a.length)
    (h₁ : Holds m₁ 0 a) (h₂ : Holds m₂ 0 a) {n : ℕ} {b : ℤ} (hp : Passes a n b) :
    ∀ {v₁ v₂ : InterfaceInfoVlan}, -4 ≤ b → b ≤ 65531 → Apart a.length n v₁ v₂ →
    Tells m₁ m₂ n b v₁ v₂ := by
  induction hp with
  | cut hcut =>
      intro v₁ v₂ hl hu hv
      exact tells_of_filled hm (by omega) hl hu hv.ne
  | last hf hin ha hc =>
      intro v₁ v₂ hl hu hv
      have hs := shared_of_fits h₁ h₂ hf hin
      exact tells_of_shared hs hl hu ha (fun _ => (hv.assign hm hs).ne) fun h => absurd h hc
  | next hf hin ha hc _ ih =>
      intro v₁ v₂ hl hu hv
      have hs := shared_of_fits h₁ h₂ hf hin
      obtain ⟨h4, hl', hu', _⟩ := hc.bounds hu
      exact tells_of_shared hs hl hu ha (absurd hc) fun _ =>
        ih hl' hu' ((hv.assign hm hs).mono (by omega))

theorem filled_fill {h k : ℕ} {bs bs' : List UInt8} (ha : a.length ≤ k) (hb : h + bs.length ≤ k)
    (hb' : h + bs'.length ≤ k) : Filled (fill 0xfe h bs a) (fill 0xff h bs' a) 0xfe 0xff k :=
  ⟨constFrom_fill ha hb, constFrom_fill ha hb', by decide, by decide, by decide⟩

/-- A header that fits is there once it is completed behind `a`. -/
theorem fill_header (c : UInt8) {n x t : ℕ} (hf : Fits a n x t) :
    rtattrLen (fill c n (header x t) a) n = x ∧ rtattrType (fill c n (header x t) a) n = t :=
  holds_header hf.1 hf.2.1 (holds_write_write hf.2.2)

/-- A header that is cut off and fits can be completed behind `a`, and followed by anything. -/
theorem holds_fill_header {c : UInt8} {n x t : ℕ} (hf : Fits a n x t) (hcut : a.length < n + 4)
    (bs : List UInt8) : Holds (fill c n (header x t ++ bs) a) n (header x t ++ bs) := by
  apply holds_write_write
  have hlen : (a.drop n).length ≤ 4 := by
    rw [List.length_drop]
    omega
  rw [List.take_of_length_le (by simp; omega), ← List.take_of_length_le hlen]
  exact hf.2.2.trans (List.prefix_append _ _)

theorem shared_fill {c₁ c₂ : UInt8} {n x t : ℕ} (hf : Fits a n x t) (hcut : a.length < n + 4)
    (bs bs' : List UInt8) :
    Shared (fill c₁ n (header x t ++ bs) a) (fill c₂ n (header x t ++ bs') a) n x t :=
  ⟨holds_header hf.1 hf.2.1 (holds_append.mp (holds_fill_header hf hcut bs)).1,
    holds_header hf.1 hf.2.1 (holds_append.mp (holds_fill_header hf hcut bs')).1⟩

/-- From behind a header at `n`, filled up to `n'`, and then the header of an identifier. -/
def second (c : UInt8) (n n' : ℕ) : List UInt8 := List.replicate (n' - (n + 4)) c ++ header 6 1

theorem length_second (c : UInt8) (n n' : ℕ) (h : n + 4 ≤ n') :
    n + 4 + (second c n n').length = n' + 4 := by
  rw [second, List.length_append, List.length_replicate, length_header]
  omega

theorem second_header (c : UInt8) {n n' x t : ℕ} (hf : Fits a n x t) (hcut : a.length < n + 4)
    (h : n + 4 ≤ n') :
    rtattrLen (fill c n (header x t ++ second c n n') a) n' = 6 ∧
      rtattrType (fill c n (header x t ++ second c n n') a) n' = 1 := by
  have hmem := (holds_append.mp (holds_fill_header (c := c) hf hcut (second c n n'))).2
  rw [length_header] at hmem
  have hlast := (holds_append.mp hmem).2
  rw [List.length_replicate, Nat.add_sub_cancel' h] at hlast
  exact holds_header (by norm_num) (by norm_num) hlast

/-- A header that has a value, with nothing but the filled part behind it. -/
theorem tells_of_header {m₁ m₂ : Mem} {c₁ c₂ : UInt8} {n x t : ℕ} {b : ℤ}
    (hm : Filled m₁ m₂ c₁ c₂ (n + 4)) (hs : Shared m₁ m₂ n x t) (hl : -4 ≤ b) (hu : b ≤ 65531)
    (ha : Accepts x t) (hw : 0 < vlanWidth t) (v : InterfaceInfoVlan) : Tells m₁ m₂ n b v v := by
  have hv := apart_of_value hm hs hw (by omega) v v
  refine tells_of_shared hs hl hu ha (fun _ => hv.ne) fun hc => ?_
  obtain ⟨h4, hl', hu', _⟩ := hc.bounds hu
  exact tells_of_filled hm (by omega) hl' hu' hv.ne

/-- The high byte of a type that is cut off may be anything. -/
theorem Fits.high {n x t : ℕ} (hf : Fits a n x t) (hcut : a.length < n + 4) :
    Fits a n x (t % 256 + 0xfe00) := by
  refine ⟨hf.1, by omega, ?_⟩
  have hthree : header x t = [UInt8.ofNat x, UInt8.ofNat (x / 256), UInt8.ofNat t] ++
      [UInt8.ofNat (t / 256)] := rfl
  have hlow : UInt8.ofNat (t % 256 + 0xfe00) = UInt8.ofNat t := by
    rw [← UInt8.toNat_inj, UInt8.toNat_ofNat', UInt8.toNat_ofNat']
    omega
  have hpre := hf.2.2
  rw [hthree] at hpre
  have := List.prefix_of_prefix_length_le hpre (List.prefix_append _ _)
    (by rw [List.length_take, List.length_drop]; simp; omega)
  rw [← hlow] at this
  exact this.trans (List.prefix_append _ _)

/-- **A leak**: two memories that hold `a` give different results. -/
theorem exists_ne_of_leaks {n : ℕ} {b : ℤ} (h : Leaks a n b) : -4 ≤ b → b ≤ 65531 →
    ∃ m₁ m₂, Holds m₁ 0 a ∧ Holds m₂ 0 a ∧ ∀ v, Tells m₁ m₂ n b v v := by
  induction h with
  | value hf hin ha hcut hp =>
      intro hl hu
      have hm : Filled (fill 0xfe 0 [] a) (fill 0xff 0 [] a) 0xfe 0xff a.length :=
        filled_fill le_rfl (by simp) (by simp)
      have h₁ := holds_fill 0xfe 0 [] a
      have h₂ := holds_fill 0xff 0 [] a
      refine ⟨_, _, h₁, h₂, fun v => ?_⟩
      have hs := shared_of_fits h₁ h₂ hf hin
      have hv := apart_of_value hm hs (by omega) hcut v v
      refine tells_of_shared hs hl hu ha (fun _ => hv.ne) fun hc => ?_
      obtain ⟨h4, hl', hu', _⟩ := hc.bounds hu
      exact tells_of_passes hm h₁ h₂ (hp hc) hl' hu' (hv.mono (by omega))
  | @type n b x t hf hcut ha hw =>
      intro hl hu
      refine ⟨_, _, holds_fill 0xfe n (header x t ++ []) a, holds_fill 0xff n (header x t ++ []) a,
        fun v => ?_⟩
      exact tells_of_header (filled_fill (by omega) (by simp) (by simp))
        (shared_fill hf hcut [] []) hl hu ha hw v
  | @len n b x t hf hcut hc =>
      -- the next header, behind `a`, is made one of an identifier
      intro hl hu
      obtain ⟨h4, hl', hu', _⟩ := hc.bounds hu
      have hf' := hf.high hcut
      have hw : vlanWidth (t % 256 + 0xfe00) = 0 := by
        unfold vlanWidth IFLA_VLAN_ID IFLA_VLAN_FLAGS IFLA_VLAN_PROTOCOL
        rw [if_neg (by omega), if_neg (by omega), if_neg (by omega)]
      have hlen := length_second 0xfe n (n + roundUp 4 x) (by omega)
      have hlen' := length_second 0xff n (n + roundUp 4 x) (by omega)
      set bs := header x (t % 256 + 0xfe00) ++ second 0xfe n (n + roundUp 4 x) with hbs
      set bs' := header x (t % 256 + 0xfe00) ++ second 0xff n (n + roundUp 4 x) with hbs'
      have hm : Filled (fill 0xfe n bs a) (fill 0xff n bs' a) 0xfe 0xff (n + roundUp 4 x + 4) :=
        filled_fill (by omega) (by rw [hbs, List.length_append, length_header]; omega)
          (by rw [hbs', List.length_append, length_header]; omega)
      refine ⟨_, _, holds_fill 0xfe n bs a, holds_fill 0xff n bs' a, fun v => ?_⟩
      refine tells_of_shared (shared_fill hf' hcut _ _) hl hu (.inl hw) (absurd hc) fun _ => ?_
      rw [v.assign_of_width hw, v.assign_of_width hw]
      exact tells_of_header hm ⟨second_header _ hf' hcut (by omega),
        second_header _ hf' hcut (by omega)⟩ hl' hu' (.inr (by decide)) (by decide) v
  | next hf ha hin hc _ ih =>
      intro hl hu
      obtain ⟨_, hl', hu', _⟩ := hc.bounds hu
      obtain ⟨m₁, m₂, h₁, h₂, htell⟩ := ih hl' hu'
      refine ⟨m₁, m₂, h₁, h₂, fun v => ?_⟩
      have hs := shared_of_fits h₁ h₂ hf (by omega)
      have hval := value_eq_of_holds h₁ h₂ hin
      rw [Nat.zero_add] at hval
      refine tells_of_shared hs hl hu ha (absurd hc) fun _ => ?_
      rw [vlanValue, vlanValue, hs.1.2, hs.2.2, hval]
      exact htell _

end Hspp
