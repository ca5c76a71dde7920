import Mathlib.Data.List.Perm.Basic
import Mathlib.Data.List.Nodup

/-! # Tables with keys

A table of resources in which every holder has one entry, found by its key.  `Tenure key f base
rs os`: the table `rs` consists of what was there at first, `base`, and of the entries `f o` of
the holders `os`, whose keys are their own.  Entries with new keys may be taken (`Tenure.take`),
and given back by their keys in any order (`Tenure.give`). -/

namespace Keyed

variable {α β κ : Type*}

structure Tenure (key : β → κ) (f : α → β) (base rs : List β) (os : List α) : Prop where
  perm : rs.Perm (os.map f ++ base)
  nodup : (os.map fun o => key (f o)).Nodup
  apart : ∀ b ∈ base, ∀ o ∈ os, key b ≠ key (f o)

variable {key : β → κ} {f : α → β} {base rs : List β} {os : List α} {o : α}

theorem Tenure.start (key : β → κ) (f : α → β) (base : List β) : Tenure key f base base [] :=
  ⟨.refl _, List.nodup_nil, fun _ _ _ h => absurd h List.not_mem_nil⟩

theorem Tenure.mem (h : Tenure key f base rs os) (ho : o ∈ os) : f o ∈ rs :=
  h.perm.mem_iff.mpr (List.mem_append_left _ (List.mem_map_of_mem ho))

/-- An entry with a new key is taken. -/
theorem Tenure.take (h : Tenure key f base rs os) (hnew : ∀ r ∈ rs, key r ≠ key (f o)) :
    Tenure key f base (f o :: rs) (o :: os) := by
  refine ⟨?_, ?_, ?_⟩
  · rw [List.map_cons, List.cons_append]
    exact h.perm.cons _
  · rw [List.map_cons, List.nodup_cons]
    refine ⟨fun hmem => ?_, h.nodup⟩
    obtain ⟨o', ho', heq⟩ := List.mem_map.mp hmem
    exact hnew _ (h.mem ho') heq
  · intro b hb o' ho'
    rcases List.mem_cons.mp ho' with rfl | ho'
    · exact hnew b (h.perm.mem_iff.mpr (List.mem_append_right _ hb))
    · exact h.apart b hb o' ho'

/-- Holders with one key are one. -/
theorem Tenure.inj (h : Tenure key f base rs os) {o' : α} (ho : o ∈ os) (ho' : o' ∈ os)
    (heq : key (f o) = key (f o')) : o = o' :=
  List.inj_on_of_nodup_map h.nodup ho ho' heq

/-- What is found under the key of a holder is its entry. -/
theorem Tenure.eq_of_key (h : Tenure key f base rs os) (ho : o ∈ os) {r : β} (hr : r ∈ rs)
    (heq : key r = key (f o)) : r = f o := by
  rcases List.mem_append.mp (h.perm.mem_iff.mp hr) with hr | hr
  · obtain ⟨o', ho', rfl⟩ := List.mem_map.mp hr
    rw [h.inj ho' ho heq]
  · exact absurd heq (h.apart r hr o ho)

variable [DecidableEq κ] [DecidableEq α]

/-- **Giving back**: what is removed by the key of a holder is its entry, and nothing else. -/
theorem Tenure.give (h : Tenure key f base rs os) (ho : o ∈ os) :
    Tenure key f base (rs.filter fun r => key r ≠ key (f o)) (os.erase o) := by
  have hnodup : os.Nodup := h.nodup.of_map _
  have hbase : (base.filter fun r => key r ≠ key (f o)) = base :=
    List.filter_eq_self.mpr fun b hb => decide_eq_true (h.apart b hb o ho)
  have hos : (os.map f).filter (fun r => key r ≠ key (f o)) = (os.erase o).map f := by
    rw [List.filter_map, hnodup.erase_eq_filter]
    refine congrArg (List.map f) (List.filter_congr fun o' ho' => ?_)
    rw [Function.comp_apply, Bool.eq_iff_iff, decide_eq_true_iff, bne_iff_ne]
    exact not_congr ⟨fun hkey => h.inj ho' ho hkey, fun heq => by rw [heq]⟩
  refine ⟨?_, ?_, ?_⟩
  · have hperm := h.perm.filter fun r => decide (key r ≠ key (f o))
    rwa [List.filter_append, hos, hbase] at hperm
  · exact h.nodup.sublist (os.erase_sublist.map _)
  · exact fun b hb o' ho' => h.apart b hb o' (List.mem_of_mem_erase ho')

end Keyed
