import Hspp.DumpResidual

/-! # Two walkers over attributes

The dump functions step with `RTA_NEXT` as long as `RTA_OK`; `rta_to_str_IFLA_LINKINFO` steps
with `rtattr_next`, which returns `NULL` when no more than a header is left.  `rtattrWalk` is
the latter loop with the attributes looked at in place of what is done with them.

An attribute without payload is just a header, so at the end of a buffer `rtattr_next` does not
get to it: the walkers agree when the last attribute has a payload, or is the only one
(`walkersAgree_iff`). -/

namespace Hspp

open CInt Loop Memory Records

/-- The variables of the loop, and the attributes looked at. -/
structure RtattrWalk where
  nrta : ℕ
  nbuflen : ℤ
  visited : List ℕ
deriving DecidableEq, Repr

/-- One round of `while (nrta) { ..; nrta = rtattr_next(nrta, &nbuflen); .. }`, which also ends
when nothing is left. -/
def rtattrWalk (m : Mem) (s : RtattrWalk) : RtattrWalk ⊕ List ℕ :=
  match rtattrNext m s.nrta s.nbuflen with
  | (none, _) => .inr (s.visited ++ [s.nrta])
  | (some nrta, nbuflen) =>
      if nbuflen ≤ 0 then .inr (s.visited ++ [s.nrta])
      else .inl ⟨nrta, nbuflen, s.visited ++ [s.nrta]⟩

/-- The loop of the dump functions, with a decoder that always returns. -/
def rtaWalk (m : Mem) : AttrLoop → AttrLoop ⊕ (List ℕ × Option Halt) :=
  attrLoop (fun _ _ _ => .ok []) 0 m

/-- Both loops, started at `o` with `n` bytes left, look at the same attributes in the same
order. -/
def WalkersAgree (m : Mem) (o n : ℕ) : Prop :=
  ∃ visited, Exits (rtattrWalk m) ⟨o, n, []⟩ visited ∧
    Exits (rtaWalk m) ⟨o, n, []⟩ (visited, none)

variable {m : Mem}

/-! ### One round -/

/-- With an attribute and `n` bytes behind it left, the walker goes on if these are more than a
header. -/
theorem rtattrNext_record {a : Attr} {o n : ℕ} (ha : Holds m o a.bytes)
    (hlt : roundUp 4 a.bytes.length + n < 2 ^ 63) :
    rtattrNext m o (roundUp 4 a.bytes.length + n : ℕ) =
      if 4 < n then (some (o + roundUp 4 a.bytes.length), (n : ℤ))
      else (none, ((roundUp 4 a.bytes.length + n : ℕ) : ℤ)) := by
  have hlen := Attr.rtattrLen_eq ha
  have hhdr := a.hdr_le
  rw [rtattrNext_eq (by omega) (by omega), hlen]
  by_cases hn : 4 < n
  · rw [if_pos hn, if_pos (by omega), show ((roundUp 4 a.bytes.length + n : ℕ) : ℤ) -
      roundUp 4 a.bytes.length = n by omega]
  · rw [if_neg hn, if_neg (by omega)]

/-- An attribute is the last one when no more than a header is left behind it. -/
theorem rtattrWalk_last {a : Attr} {o n : ℕ} (visited : List ℕ) (ha : Holds m o a.bytes)
    (hn : n ≤ 4) : rtattrWalk m ⟨o, (roundUp 4 a.bytes.length + n : ℕ), visited⟩ =
      .inr (visited ++ [o]) := by
  have hlen := Attr.rtattrLen_eq ha
  have hlt := rtattrLen_lt m o
  have hup := roundUp_lt (a := 4) (by norm_num) a.bytes.length
  have hnext := rtattrNext_record (n := n) ha (by omega)
  rw [if_neg (by omega)] at hnext
  simp only [rtattrWalk, hnext]

/-- Otherwise the loop goes on behind its padding. -/
theorem rtattrWalk_next {a : Attr} {o n : ℕ} (visited : List ℕ) (ha : Holds m o a.bytes)
    (hn : 4 < n) (hlt : roundUp 4 a.bytes.length + n < 2 ^ 63) :
    rtattrWalk m ⟨o, (roundUp 4 a.bytes.length + n : ℕ), visited⟩ =
      .inl ⟨o + roundUp 4 a.bytes.length, n, visited ++ [o]⟩ := by
  have hnext := rtattrNext_record ha hlt
  rw [if_pos hn] at hnext
  simp only [rtattrWalk, hnext]
  rw [if_neg (by omega)]

/-! ### Whole lists -/

/-- The loop gets through attributes with more than a header behind them. -/
theorem rtattrWalk_reaches : ∀ (as : List Attr) (o n : ℕ) (visited : List ℕ),
    Holds m o (encode as) → (as = [] ∨ 4 < n) → (encode as).length + n < 2 ^ 63 →
    Reaches (rtattrWalk m) ⟨o, ((encode as).length + n : ℕ), visited⟩
      ⟨o + (encode as).length, n, visited ++ starts o as⟩
  | [], o, n, visited, _, _, _ => by
      rw [encode_nil, starts_nil, List.append_nil, List.length_nil, Nat.zero_add, Nat.add_zero]
      exact .refl _
  | a :: as, o, n, visited, hmem, hn, hlt => by
      rw [holds_encode_cons] at hmem
      rw [length_encode_cons, Nat.add_assoc] at hlt ⊢
      have hn' : 4 < n := hn.resolve_left (List.cons_ne_nil a as)
      have hnext := rtattrWalk_next visited (Record.holds_bytes hmem.1)
        (show 4 < (encode as).length + n by omega) hlt
      have ih := rtattrWalk_reaches as (o + roundUp 4 a.bytes.length) n (visited ++ [o]) hmem.2
        (.inr hn') (by omega)
      rw [List.append_assoc, List.singleton_append, Nat.add_assoc o] at ih
      rw [starts_cons]
      exact (Reaches.single hnext).trans ih

/-- The loop looks at all attributes when the last one has a payload or is the only one. -/
theorem rtattrWalk_exits {a : Attr} (as : List Attr) (o : ℕ) (visited : List ℕ)
    (hmem : Holds m o (encode (as ++ [a]))) (hlt : (encode (as ++ [a])).length < 2 ^ 63)
    (ha : as = [] ∨ 4 < a.bytes.length) :
    Exits (rtattrWalk m) ⟨o, (encode (as ++ [a])).length, visited⟩
      (visited ++ starts o (as ++ [a])) := by
  have hlen : (encode [a]).length = roundUp 4 a.bytes.length := by
    rw [length_encode_cons, encode_nil, List.length_nil, Nat.add_zero]
  rw [encode_append, holds_append, holds_encode_cons] at hmem
  rw [encode_append, List.length_append, hlen] at hlt ⊢
  have hle := le_roundUp (a := 4) (by norm_num) a.bytes.length
  have hreach := rtattrWalk_reaches as o (roundUp 4 a.bytes.length) visited hmem.1
    (ha.imp_right (·.trans_le hle)) hlt
  rw [starts_append, starts_cons, starts_nil, ← List.append_assoc]
  exact .of_reaches hreach
    (.single (rtattrWalk_last _ (Record.holds_bytes hmem.2.1) (Nat.zero_le 4)))

/-- It leaves out a last attribute without payload. -/
theorem rtattrWalk_exits_of_empty {a : Attr} (ha : a.bytes.length = 4) (as : List Attr) (o : ℕ)
    (visited : List ℕ) (hne : as ≠ []) (hmem : Holds m o (encode (as ++ [a])))
    (hlt : (encode (as ++ [a])).length < 2 ^ 63) :
    Exits (rtattrWalk m) ⟨o, (encode (as ++ [a])).length, visited⟩ (visited ++ starts o as) := by
  obtain rfl | ⟨bs, b, rfl⟩ := as.eq_nil_or_concat'
  · exact absurd rfl hne
  -- at `b` there is just a header left behind
  have hlen : (encode ([b] ++ [a])).length = roundUp 4 b.bytes.length + 4 := by
    rw [List.singleton_append, length_encode_cons, length_encode_cons, ha]
    rfl
  rw [List.append_assoc, encode_append, holds_append, List.singleton_append,
    holds_encode_cons] at hmem
  rw [List.append_assoc, encode_append, List.length_append, hlen] at hlt ⊢
  have hb := b.hdr_le_roundUp (by norm_num)
  have hreach := rtattrWalk_reaches bs o (roundUp 4 b.bytes.length + 4) visited hmem.1
    (.inr (by omega)) hlt
  rw [starts_append, starts_cons, starts_nil, ← List.append_assoc]
  exact .of_reaches hreach (.single (rtattrWalk_last _ (Record.holds_bytes hmem.2.1) le_rfl))

/-- The other loop looks at all attributes. -/
theorem rtaWalk_exits {attrs : List Attr} {o : ℕ} (hmem : Holds m o (encode attrs))
    (hlt : (encode attrs).length < 2 ^ 63) :
    Exits (rtaWalk m) ⟨o, (encode attrs).length, []⟩ (starts o attrs, none) := by
  have hreturns : ∀ o' ∈ starts o attrs, Returns (fun _ _ _ => .ok []) 0 m o' :=
    fun _ _ => ⟨[], rfl⟩
  have hreach := attrLoop_reaches attrs o 0 [] hmem (by omega) hreturns
  refine .of_reaches ⟨_, hreach⟩ (.single ?_)
  exact attrLoop_done (not_rtaOk_zero m _)

/-- **Walkers**: over a buffer of attributes both loops look at the same attributes exactly when
there is one and the last one has a payload, or there is just one. -/
theorem walkersAgree_iff {attrs : List Attr} {o : ℕ} (hmem : Holds m o (encode attrs))
    (hlt : (encode attrs).length < 2 ^ 63) :
    WalkersAgree m o (encode attrs).length ↔
      attrs.length = 1 ∨ ∃ a ∈ attrs.getLast?, 4 < a.bytes.length := by
  have hdump := rtaWalk_exits hmem hlt
  constructor
  · rintro ⟨visited, hwalk, hdump'⟩
    have hvisited : visited = starts o attrs := congrArg Prod.fst (hdump'.unique hdump)
    obtain rfl | ⟨as, a, rfl⟩ := attrs.eq_nil_or_concat'
    · -- `rtattr_next` is not asked whether there is a first attribute
      have hone : rtattrWalk m ⟨o, 0, []⟩ = .inr [o] := by
        simp [rtattrWalk, rtattrNext]
      cases hvisited
      cases hwalk.unique (.single hone)
    · by_contra hno
      rw [not_or, List.getLast?_concat] at hno
      have ha4 := a.hdr_le
      have hempty : a.bytes.length = 4 := by
        by_contra hne
        exact hno.2 ⟨a, rfl, by omega⟩
      have hne : as ≠ [] := by
        rintro rfl
        exact hno.1 rfl
      have hwalk' := rtattrWalk_exits_of_empty hempty as o [] hne hmem hlt
      have hlen := congrArg List.length (hwalk.unique hwalk')
      rw [hvisited, length_starts, List.length_append, List.nil_append, length_starts] at hlen
      exact absurd hlen (Nat.succ_ne_self _)
  · intro h
    obtain rfl | ⟨as, a, rfl⟩ := attrs.eq_nil_or_concat'
    · rcases h with h | ⟨a, ha, -⟩
      · cases h
      · cases ha
    · refine ⟨_, rtattrWalk_exits as o [] hmem hlt ?_, hdump⟩
      rcases h with h | ⟨b, hb, hlast⟩
      · rw [List.length_append, List.length_singleton] at h
        exact .inl (List.length_eq_zero_iff.mp (by omega))
      · rw [List.getLast?_concat] at hb
        cases hb
        exact .inr hlast

/-- The flags of a VLAN and an empty attribute. -/
def emptyLast : List Attr :=
  [⟨[8, 0, 2, 0, 1, 0, 0, 0], [], by decide, by decide, by decide⟩,
    ⟨[4, 0, 3, 0], [], by decide, by decide, by decide⟩]

theorem not_walkersAgree_emptyLast :
    ¬ ∀ (m : Mem) (o : ℕ) (attrs : List Attr), attrs ≠ [] → Holds m o (encode attrs) →
      (encode attrs).length < 2 ^ 63 → WalkersAgree m o (encode attrs).length := by
  intro h
  obtain ⟨visited, hwalk, hdump⟩ := h (write (fun _ => 0) 0 (encode emptyLast)) 0 emptyLast
    (by simp [emptyLast]) (holds_write _ _ _) (by decide)
  have hwalk' := rtattrWalk_exits_of_empty
    (a := ⟨[4, 0, 3, 0], [], by decide, by decide, by decide⟩) rfl
    [⟨[8, 0, 2, 0, 1, 0, 0, 0], [], by decide, by decide, by decide⟩] 0 [] (by simp)
    (holds_write (fun _ => 0) 0 (encode emptyLast)) (by decide)
  have hdump' := rtaWalk_exits (holds_write (fun _ => 0) 0 (encode emptyLast)) (by decide)
  have hboth := (hwalk.unique hwalk').symm.trans (congrArg Prod.fst (hdump.unique hdump'))
  exact absurd hboth (by decide)

theorem walkersAgree_iff_emptyLast :
    WalkersAgree (write (fun _ => 0) 0 (encode emptyLast)) 0 (encode emptyLast).length ↔
      emptyLast.length = 1 ∨ ∃ a ∈ emptyLast.getLast?, 4 < a.bytes.length :=
  walkersAgree_iff (holds_write _ _ _) (by decide)

end Hspp
