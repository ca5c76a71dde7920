import Hspp.Carrydump

/-! # Reloading what `carrydump` has printed

If all rows of a buffer are quiet, the definition that `carrydump` prints has the bytes of the
buffer as its elements (`carrydump_reloads`).  For plain constants there is one other way to get
them back: a row opens a comment, only one row follows, and the characters of the one spell the
elements of the other that are lost in the comment (`reloads_iff_quiet_or_replaces`).  C has more
ways to spell a number, and so more such coincidences.

`Reads` is what is still to be read in the middle of the text, and what a row does to it is in
`Reads.visible` and `Reads.hidden`.  A row that is not quiet leaves one or two elements too many, or
it opens a comment, in which more elements are lost than it leaves unless the next row is the last.
In the first case all rows that follow repeat after one or two bytes, so that they are quiet
(`not_reads_ahead`).  In the second the elements are behind the bytes up to the end
(`not_reads_behind`): a row that leaves elements repeats after three bytes or more, and leaves at
most two. -/

namespace Hspp

open CLex Memory Rows Text

/-! ### Reading rows -/

/-- The values of bytes. -/
def vals (bytes : List UInt8) : List ℕ := bytes.map UInt8.toNat

theorem length_vals (bytes : List UInt8) : (vals bytes).length = bytes.length := List.length_map _

theorem vals_flatten_cons (r : List UInt8) (rs : List (List UInt8)) :
    vals (r :: rs).flatten = vals r ++ vals rs.flatten := List.map_append

/-- After the tokens `ts` the rows, read from mode `q` on, give the elements `ns`. -/
def Reads (q : Mode) (ts : List Token) (rs : List (List UInt8)) (ns : List ℕ) : Prop :=
  (scan q (carryRows rs)).1 = .blank ∧
    elements (ts ++ ((scan q (carryRows rs)).2 ++ endTokens)) = some ns

theorem elements_cellTokens (bytes : List UInt8) (ts : List Token) :
    elements (cellTokens bytes ++ ts) = (elements ts).map (vals bytes ++ ·) := by
  induction bytes with
  | nil => exact Option.map_id'.symm
  | cons c bytes ih =>
      have hconst := plainConst_printNum (w := 2) (by norm_num) c.toNat_lt
      unfold cellTokens at ih ⊢
      rw [List.flatMap_cons, List.append_assoc, List.cons_append, List.cons_append,
        List.nil_append, elements_cons hconst, ih, Option.map_map]
      rfl

theorem reads_nil {ns : List ℕ} : Reads .blank [] [] ns ↔ ns = [] :=
  ⟨fun h => (Option.some.inj (h.2.symm.trans elements_nil)), fun h => ⟨rfl, h ▸ elements_nil⟩⟩

/-- The text may not end in a comment. -/
theorem not_reads_block_nil {ts : List Token} {ns : List ℕ} : ¬ Reads .block ts [] ns :=
  fun h => Mode.noConfusion h.1

/-- **One row** leaves its characters for code, and the scanner in a comment or not. -/
theorem Reads.row {q : Mode} {ts us : List Token} {r : List UInt8} {rs : List (List UInt8)}
    {ns : List ℕ} (h : Reads q ts (r :: rs) ns) (hq : q.Marked) (hlen : r.length ≤ 8)
    (hfront : scan q (carryFront r) = (q, us)) :
    ((columnScan q r).1 = .block ∨ (columnScan q r).1 = .star ∨ (columnScan q r).1 = .line) ∧
        Reads .blank (ts ++ (us ++ (columnScan q r).2)) rs ns ∨
      (columnScan q r).1 = .slash ∧ Reads .block (ts ++ (us ++ (columnScan q r).2)) rs ns := by
  obtain ⟨hmode, helems⟩ := h
  have hrows : carryRows (r :: rs) = (carryLine r ++ [10]) ++ carryRows rs := rfl
  rw [hrows, scan_append, scan_carryLine hlen hfront] at hmode helems
  rcases scan_close (q := (columnScan q r).1) (marked_scan hq _) with
    ⟨hcolumn, hclose⟩ | ⟨hcolumn, hclose⟩ | hbad | hstar
  · rw [hclose] at hmode helems
    refine .inl ⟨hcolumn, hmode, ?_⟩
    simpa only [List.append_assoc, List.nil_append] using helems
  · rw [hclose] at hmode helems
    refine .inr ⟨hcolumn, hmode, ?_⟩
    simpa only [List.append_assoc, List.nil_append] using helems
  · rw [hbad, scan_bad] at hmode
    cases hmode
  · refine absurd ?_ (notMem_of_elements (t := ascii "*") (by decide) (by decide) helems)
    simp only [List.mem_append]
    exact .inr (.inl (.inl (.inr (.inr hstar))))

/-- The row outside of comments: its elements are read, and then it is quiet, or something is left
of it, with a comment at its end or an open one. -/
theorem Reads.visible {r : List UInt8} {rs : List (List UInt8)} {ns : List ℕ}
    (h : Reads .blank [] (r :: rs) ns) (hlen : r.length ≤ 8) : ∃ ns', ns = vals r ++ ns' ∧
      (Quiet .blank r ∧ Reads .blank [] rs ns' ∨ ¬ Quiet .blank r ∧
        ((∃ ts : List Token, 0 < ts.length ∧ ts.length ≤ 4 ∧ Reads .blank ts rs ns') ∨
          Opens r ∧ (columnScan .blank r).2.length ≤ 5 ∧
            Reads .block (columnScan .blank r).2 rs ns')) := by
  have hcells : ∀ {q}, Reads q ([] ++ (cellTokens r ++ (columnScan .blank r).2)) rs ns →
      ∃ ns', ns = vals r ++ ns' ∧ Reads q (columnScan .blank r).2 rs ns' := by
    rintro q ⟨hmode, helems⟩
    rw [List.nil_append, List.append_assoc, elements_cellTokens] at helems
    obtain ⟨ns', hns', rfl⟩ := Option.map_eq_some_iff.mp helems
    exact ⟨ns', rfl, hmode, hns'⟩
  have hbound := (length_columnScan r).1
  rcases h.row trivial hlen (scan_carryFront r) with ⟨hmode, hreads⟩ | ⟨hmode, hreads⟩
  · obtain ⟨ns', rfl, hrest⟩ := hcells hreads
    refine ⟨ns', rfl, ?_⟩
    by_cases hquiet : Quiet .blank r
    · rw [hquiet.2] at hrest
      exact .inl ⟨hquiet, hrest⟩
    · have hpos : (columnScan .blank r).2 ≠ [] := fun hnil => hquiet ⟨hmode, hnil⟩
      have hsize := size_of_comment hmode
      have hle := hbound.resolve_left hquiet
      exact .inr ⟨hquiet, .inl ⟨_, List.length_pos_iff.mpr hpos, by omega, hrest⟩⟩
  · obtain ⟨ns', rfl, hrest⟩ := hcells hreads
    have hquiet := not_quiet_of_slash hmode
    have hle := hbound.resolve_left hquiet
    have hsize : (columnScan .blank r).1.size = 1 := by rw [hmode, Mode.size]
    exact ⟨ns', rfl, .inr ⟨hquiet, .inr ⟨hmode, by omega, hrest⟩⟩⟩

/-- The row in a comment: its elements are lost. -/
theorem Reads.hidden {ts : List Token} {r : List UInt8} {rs : List (List UInt8)} {ns : List ℕ}
    (h : Reads .block ts (r :: rs) ns) (hlen : r.length ≤ 8) :
    Quiet .block r ∧ Reads .blank ts rs ns ∨
      (∃ us : List Token, 0 < us.length ∧ us.length + 3 ≤ r.length ∧
        Reads .blank (ts ++ us) rs ns) ∨
        ∃ us : List Token, us.length + 2 ≤ r.length ∧ Reads .block (ts ++ us) rs ns := by
  have hbound := (length_columnScan r).2
  rcases h.row trivial hlen (scan_carryFront_block r) with ⟨hmode, hreads⟩ | ⟨hmode, hreads⟩
  all_goals rw [List.nil_append] at hreads
  · by_cases hquiet : Quiet .block r
    · rw [hquiet.2, List.append_nil] at hreads
      exact .inl ⟨hquiet, hreads⟩
    · have hpos : (columnScan .block r).2 ≠ [] := fun hnil => hquiet ⟨hmode, hnil⟩
      have hsize := size_of_comment hmode
      have hle := hbound.resolve_left hquiet
      exact .inr (.inl ⟨_, List.length_pos_iff.mpr hpos, by omega, hreads⟩)
  · have hle := hbound.resolve_left (not_quiet_of_slash hmode)
    have hsize : (columnScan .block r).1.size = 1 := by rw [hmode, Mode.size]
    exact .inr (.inr ⟨_, by omega, hreads⟩)

/-- Tokens that are left before the rows are whole elements, but for a last comma. -/
theorem Reads.split {ts : List Token} {rs : List (List UInt8)} {ns : List ℕ}
    (h : Reads .blank ts rs ns) (hrs : ∀ r ∈ rs, r ≠ [] ∧ r.length ≤ 8) :
    ∃ ns₁ ns₂, ns = ns₁ ++ ns₂ ∧ ts.length ≤ 2 * ns₁.length ∧ 2 * ns₁.length ≤ ts.length + 1 ∧
      Reads .blank [] rs ns₂ := by
  cases rs with
  | nil =>
      have hlen := length_elements h.2
      have hend : endTokens.length = 2 := rfl
      have hnil : (scan .blank (carryRows [])).2 = [] := rfl
      rw [hnil, List.nil_append, List.length_append, hend] at hlen
      exact ⟨ns, [], (List.append_nil ns).symm, by omega, by omega, reads_nil.mpr rfl⟩
  | cons r rs =>
      obtain ⟨hne, hlen⟩ := hrs r (.head _)
      obtain ⟨c, cs, rfl⟩ := List.exists_cons_of_ne_nil hne
      have hconst := plainConst_printNum (w := 2) (by norm_num) c.toNat_lt
      obtain ⟨hmode, helems⟩ := h
      have hrows : ∃ us, (scan .blank (carryRows ((c :: cs) :: rs))).2 ++ endTokens =
          (ascii "0x" ++ printNum 16 2 c.toNat) :: us := by
        have hcons : carryRows ((c :: cs) :: rs) =
            (carryLine (c :: cs) ++ [10]) ++ carryRows rs := rfl
        rw [hcons, scan_append, scan_carryLine hlen (scan_carryFront _)]
        exact ⟨_, rfl⟩
      obtain ⟨us, hus⟩ := hrows
      rw [hus] at helems
      obtain ⟨ns₁, ns₂, rfl, hns₁, hns₂⟩ := elements_append hconst helems
      rw [← hus] at hns₂
      exact ⟨ns₁, ns₂, rfl, hns₁.ge, hns₁.le.trans (Nat.le_succ _), hmode, by rwa [List.nil_append]⟩

/-! ### Elements ahead of the bytes or behind them -/

/-- `x`, `y`, `x` and so on. -/
def alternate {α : Type*} (x y : α) : ℕ → List α
  | 0 => []
  | n + 1 => x :: alternate y x n

theorem eq_alternate {α : Type*} {x y : α} {l : List α} (h : l <+: x :: y :: l) :
    l = alternate x y l.length := by
  induction l generalizing x y with
  | nil => rfl
  | cons c l ih =>
      obtain ⟨rfl, htail⟩ := List.cons_prefix_cons.mp h
      exact congrArg (c :: ·) (ih htail)

theorem map_alternate {α β : Type*} (f : α → β) (x y : α) :
    ∀ n, (alternate x y n).map f = alternate (f x) (f y) n
  | 0 => rfl
  | n + 1 => congrArg (f x :: ·) (map_alternate f y x n)

theorem infix_alternate {α : Type*} {a b x y : α} :
    ∀ {n}, [a, b] <:+: alternate x y n → x = a ∧ y = b ∨ x = b ∧ y = a
  | 0, h => absurd (List.infix_nil.mp h) (List.cons_ne_nil _ _)
  | n + 1, h => by
      rcases List.infix_cons_iff.mp h with hstart | htail
      · obtain ⟨rfl, hrest⟩ := List.cons_prefix_cons.mp hstart
        cases n with
        | zero => exact absurd (List.prefix_nil.mp hrest) (List.cons_ne_nil _ _)
        | succ n => exact .inl ⟨rfl, (List.cons_prefix_cons.mp hrest).1.symm⟩
      · exact (infix_alternate htail).symm.imp And.symm And.symm

/-- Rows of period two with `*/` leave a `*`. -/
theorem columnScan_alternate : ∀ n ≤ 8,
    ((columnScan .blank (alternate 42 47 n)).1 = .blank ∨
      Quiet .blank (alternate 42 47 n) ∨
        ascii "*" ∈ (columnScan .blank (alternate 42 47 n)).2) ∧
    ((columnScan .blank (alternate 47 42 n)).1 = .blank ∨
      Quiet .blank (alternate 47 42 n) ∨
        ascii "*" ∈ (columnScan .blank (alternate 47 42 n)).2) := by
  decide

/-- A row with `*/` that repeats after one or two bytes has nothing but `*/` in it. -/
theorem eq_alternate_of_period {d : List ℕ} {r : List UInt8} (hclose : [42, 47] <:+: r)
    (hd : d.length = 1 ∨ d.length = 2) (hperiod : vals r <+: d ++ vals r) :
    r = alternate 42 47 r.length ∨ r = alternate 47 42 r.length := by
  obtain ⟨x, y, hxy⟩ : ∃ x y, vals r = alternate x y r.length := by
    rcases hd with hd | hd
    · obtain ⟨x, rfl⟩ := List.length_eq_one_iff.mp hd
      have htwo : vals r <+: x :: x :: vals r :=
        hperiod.trans (List.cons_prefix_cons.mpr ⟨rfl, hperiod⟩)
      exact ⟨x, x, (eq_alternate htwo).trans (by rw [length_vals])⟩
    · obtain ⟨x, y, rfl⟩ := List.length_eq_two.mp hd
      exact ⟨x, y, (eq_alternate hperiod).trans (by rw [length_vals])⟩
  have hinj : Function.Injective UInt8.toNat := fun a b hab => UInt8.toNat_inj.mp hab
  have hbytes : ∀ a b : UInt8, x = a.toNat → y = b.toNat → r = alternate a b r.length := by
    rintro a b rfl rfl
    exact hinj.list_map (hxy.trans (map_alternate _ _ _ _).symm)
  have hin : [42, 47] <:+: alternate x y r.length := hxy ▸ hclose.map UInt8.toNat
  rcases infix_alternate hin with ⟨hx, hy⟩ | ⟨hx, hy⟩
  · exact .inl (hbytes 42 47 hx hy)
  · exact .inr (hbytes 47 42 hx hy)

/-- A row that repeats after one or two bytes is quiet. -/
theorem Reads.quiet_of_period {d ns : List ℕ} {r : List UInt8} {rs : List (List UInt8)}
    (h : Reads .blank [] (r :: rs) ns) (hlen : r.length ≤ 8) (hd : d.length = 1 ∨ d.length = 2)
    (hperiod : vals r <+: d ++ vals r) : Quiet .blank r := by
  by_contra hquiet
  have hclose : [42, 47] <:+: r := by
    by_contra hnot
    exact hquiet (quiet_of_no_close hnot)
  -- a `*` is left, which is no element
  have hcolumn : (columnScan .blank r).1 = .blank ∨ ascii "*" ∈ (columnScan .blank r).2 := by
    obtain ⟨h₁, h₂⟩ := columnScan_alternate r.length hlen
    rcases eq_alternate_of_period hclose hd hperiod with hr | hr
    · rw [← hr] at h₁
      exact h₁.imp_right fun h₁ => h₁.resolve_left hquiet
    · rw [← hr] at h₂
      exact h₂.imp_right fun h₂ => h₂.resolve_left hquiet
  have hstar : ∀ {q}, Reads q ([] ++ (cellTokens r ++ (columnScan .blank r).2)) rs ns →
      ascii "*" ∉ (columnScan .blank r).2 := by
    intro q hreads hmem
    refine notMem_of_elements (t := ascii "*") (by decide) (by decide) hreads.2 ?_
    simp only [List.mem_append]
    exact .inl (.inr (.inr hmem))
  rcases h.row trivial hlen (scan_carryFront r) with ⟨hmode, hreads⟩ | ⟨hmode, hreads⟩
  · rw [or_iff_left (hstar hreads)] at hcolumn
    rw [hcolumn] at hmode
    simp at hmode
  · rw [or_iff_left (hstar hreads), hmode] at hcolumn
    cases hcolumn

/-- Of two beginnings of one list the longer one goes on like the list. -/
theorem prefix_of_append_eq {α : Type*} {as bs cs ds : List α} (h : as ++ bs = cs ++ ds)
    (hlen : as.length ≤ cs.length) : ∃ es, cs = as ++ es ∧ bs = es ++ ds := by
  obtain ⟨es, rfl⟩ := List.prefix_of_prefix_length_le ⟨bs, h⟩ ⟨ds, rfl⟩ hlen
  rw [List.append_assoc] at h
  exact ⟨es, rfl, List.append_cancel_left h⟩

/-- **Ahead**: one or two elements too many stay too many. -/
theorem not_reads_ahead {rs : List (List UInt8)} (hrs : ∀ r ∈ rs, r ≠ [] ∧ r.length ≤ 8)
    {d ns : List ℕ} (hd : d.length = 1 ∨ d.length = 2) (h : Reads .blank [] rs ns) :
    d ++ ns ≠ vals rs.flatten := by
  induction rs generalizing d ns with
  | nil =>
      intro heq
      have hnil := (List.append_eq_nil_iff.mp heq).1
      rw [hnil] at hd
      simp at hd
  | cons r rs ih =>
      intro heq
      obtain ⟨-, hlen⟩ := hrs r (.head _)
      obtain ⟨ns', rfl, hrow⟩ := h.visible hlen
      rw [vals_flatten_cons, ← List.append_assoc] at heq
      obtain ⟨d', hd', hrest⟩ := prefix_of_append_eq heq.symm (by simp)
      have hquiet := h.quiet_of_period hlen hd ⟨d', hd'.symm⟩
      obtain ⟨-, hreads⟩ := hrow.resolve_right fun hnot => hnot.1 hquiet
      have hlen' := congrArg List.length hd'
      simp only [List.length_append] at hlen'
      exact ih (fun r hr => hrs r (.tail _ hr)) (by omega) hreads hrest.symm

/-- Tokens that are left are elements, and if they are fewer than those missing, some still are. -/
theorem Reads.behind {ts : List Token} {rs : List (List UInt8)} {d ns bs : List ℕ}
    (h : Reads .blank ts rs ns) (hrs : ∀ r ∈ rs, r ≠ [] ∧ r.length ≤ 8)
    (hts : ts.length + 1 < 2 * d.length) (hns : ns = d ++ bs) :
    ∃ d' ns', d' ≠ [] ∧ ns' = d' ++ bs ∧ Reads .blank [] rs ns' := by
  obtain ⟨ns₁, ns₂, rfl, -, hns₁, hreads⟩ := h.split hrs
  obtain ⟨d', rfl, hrest⟩ := prefix_of_append_eq hns (by omega)
  refine ⟨d', ns₂, ?_, hrest, hreads⟩
  rintro rfl
  rw [List.append_nil] at hts
  omega

/-- **Behind**: elements that are missing stay missing, also if more than that get lost in
comments.  Tokens that are left in a comment are too few to make up for them. -/
theorem not_reads_behind {rs : List (List UInt8)} (hrs : ∀ r ∈ rs, r ≠ [] ∧ r.length ≤ 8) :
    (∀ d ns, d ≠ [] → Reads .blank [] rs ns → ns ≠ d ++ vals rs.flatten) ∧
    (∀ ts d ns, ts.length + 1 ≤ 2 * d.length → Reads .block ts rs ns →
      ns ≠ d ++ vals rs.flatten) := by
  induction rs with
  | nil =>
      constructor
      · rintro d ns hd h rfl
        exact hd (List.append_eq_nil_iff.mp (reads_nil.mp h)).1
      · intro ts d ns _ h
        exact absurd h not_reads_block_nil
  | cons r rs ih =>
      obtain ⟨hne, hlen⟩ := hrs r (.head _)
      have hrs' : ∀ r ∈ rs, r ≠ [] ∧ r.length ≤ 8 := fun r hr => hrs r (.tail _ hr)
      obtain ⟨ihread, ihlost⟩ := ih hrs'
      have hleft : ∀ ts d ns, ts.length + 1 < 2 * d.length → Reads .blank ts rs ns →
          ns ≠ d ++ vals rs.flatten := by
        intro ts d ns hts h heq
        obtain ⟨d', ns', hd', hrest, hreads⟩ := h.behind hrs' hts heq
        exact ihread d' ns' hd' hreads hrest
      constructor
      · intro d ns hd h heq
        obtain ⟨ns', rfl, hrow⟩ := h.visible hlen
        rw [vals_flatten_cons, ← List.append_assoc] at heq
        obtain ⟨d', hd', hrest⟩ := prefix_of_append_eq heq (by simp)
        have hlen' := congrArg List.length hd'
        simp only [List.length_append] at hlen'
        have hpos := List.length_pos_iff.mpr hd
        rcases hrow with ⟨-, hreads⟩ | ⟨hquiet, hrow⟩
        · exact ihread d' ns' (List.length_pos_iff.mp (by omega)) hreads hrest
        have hthree : 3 ≤ d.length := by
          by_contra hlt
          exact hquiet (h.quiet_of_period hlen (by omega) ⟨d', hd'.symm⟩)
        rcases hrow with ⟨ts, -, hts, hreads⟩ | ⟨-, hts, hreads⟩
        · exact hleft ts d' ns' (by omega) hreads hrest
        · exact ihlost _ d' ns' (by omega) hreads hrest
      · intro ts d ns hts h heq
        have hpos := List.length_pos_iff.mpr hne
        have hlen' : (d ++ vals r).length = d.length + r.length := by
          rw [List.length_append, length_vals]
        rw [vals_flatten_cons, ← List.append_assoc] at heq
        rcases h.hidden hlen with ⟨-, hreads⟩ | ⟨us, -, hus, hreads⟩ | ⟨us, hus, hreads⟩
        · exact hleft ts (d ++ vals r) ns (by omega) hreads heq
        · refine hleft (ts ++ us) (d ++ vals r) ns ?_ hreads heq
          rw [List.length_append]
          omega
        · refine ihlost (ts ++ us) (d ++ vals r) ns ?_ hreads heq
          rw [List.length_append]
          omega

/-- Behind a row that opens a comment only the last row can be replaced. -/
theorem replaces_of_opens {r s : List UInt8} {rs : List (List UInt8)}
    (hrs : ∀ q ∈ s :: rs, q ≠ [] ∧ q.length ≤ 8)
    (hfull : (s :: rs).IsChain fun q _ => q.length = 8) (hopens : Opens r)
    (hts : (columnScan .blank r).2.length ≤ 5)
    (h : Reads .block (columnScan .blank r).2 (s :: rs) (vals (s :: rs).flatten)) :
    rs = [] ∧ Replaces r s := by
  obtain ⟨hne, hlen⟩ := hrs s (.head _)
  have hrs' : ∀ q ∈ rs, q ≠ [] ∧ q.length ≤ 8 := fun q hq => hrs q (.tail _ hq)
  have hvals := length_vals s
  rw [vals_flatten_cons] at h
  obtain ⟨hread, hlost⟩ := not_reads_behind hrs'
  cases rs with
  | nil =>
      refine ⟨rfl, hopens, ?_⟩
      rcases h.hidden hlen with ⟨hquiet, hreads⟩ | ⟨us, hpos, hus, hreads⟩ | ⟨us, -, hreads⟩
      · obtain ⟨-, helems⟩ := hreads
        exact ⟨hquiet, helems.trans (congrArg some (List.append_nil _))⟩
      · -- two tokens for every byte, but for the last comma
        obtain ⟨ns₁, ns₂, heq, -, hns₁, hreads⟩ := hreads.split hrs'
        have hlen' := congrArg List.length heq
        rw [reads_nil.mp hreads] at hlen'
        simp only [List.length_append, List.length_nil, List.flatten_nil, length_vals] at hlen' hns₁
        omega
      · exact absurd hreads not_reads_block_nil
  | cons q rs =>
      have hfull : s.length = 8 := hfull.rel
      rcases h.hidden hlen with ⟨-, hreads⟩ | ⟨us, -, hus, hreads⟩ | ⟨us, hus, hreads⟩
      · obtain ⟨d', ns', hd', hrest, hreads⟩ := hreads.behind hrs' (by omega) rfl
        exact absurd hrest (hread d' ns' hd' hreads)
      · obtain ⟨d', ns', hd', hrest, hreads⟩ :=
          hreads.behind hrs' (by rw [List.length_append]; omega) rfl
        exact absurd hrest (hread d' ns' hd' hreads)
      · exact absurd rfl (hlost _ (vals s) _ (by rw [List.length_append]; omega) hreads)

/-- **The rows** give their bytes only if they are quiet, or all but the last two are and the one
replaces the other. -/
theorem quiet_or_replaces {rs : List (List UInt8)} (hrs : ∀ r ∈ rs, r ≠ [] ∧ r.length ≤ 8)
    (hfull : rs.IsChain fun r _ => r.length = 8) (h : Reads .blank [] rs (vals rs.flatten)) :
    (∀ r ∈ rs, Quiet .blank r) ∨
      ∃ qs r s, rs = qs ++ [r, s] ∧ (∀ q ∈ qs, Quiet .blank q) ∧ Replaces r s := by
  induction rs with
  | nil => exact .inl fun r hr => absurd hr List.not_mem_nil
  | cons r rs ih =>
      obtain ⟨hne, hlen⟩ := hrs r (.head _)
      have hrs' : ∀ r ∈ rs, r ≠ [] ∧ r.length ≤ 8 := fun r hr => hrs r (.tail _ hr)
      obtain ⟨ns', heq, hrow⟩ := h.visible hlen
      rw [vals_flatten_cons] at heq
      cases List.append_cancel_left heq
      rcases hrow with ⟨hquiet, hreads⟩ | ⟨-, ⟨ts, hpos, hts, hreads⟩ | ⟨hopens, hts, hreads⟩⟩
      · rcases ih hrs' hfull.tail hreads with hall | ⟨qs, q, s, rfl, hqs, hreplaces⟩
        · exact .inl (List.forall_mem_cons.mpr ⟨hquiet, hall⟩)
        · exact .inr ⟨r :: qs, q, s, rfl, List.forall_mem_cons.mpr ⟨hquiet, hqs⟩, hreplaces⟩
      · obtain ⟨ns₁, ns₂, heq', hge, hle, hreads⟩ := hreads.split hrs'
        exact absurd heq'.symm (not_reads_ahead hrs' (by omega) hreads)
      · cases rs with
        | nil => exact absurd hreads not_reads_block_nil
        | cons s rs =>
            obtain ⟨rfl, hreplaces⟩ := replaces_of_opens hrs' hfull.tail hopens hts hreads
            exact .inr ⟨[], r, s, rfl, fun q hq => absurd hq List.not_mem_nil, hreplaces⟩

/-! ### Dump and reload -/

/-- The definition has the bytes as its elements if the rows do. -/
theorem reloads_iff_reads {comment : Option SingleLine} {m : Mem} {buffer bufferlen : ℕ} :
    Reloads comment m buffer bufferlen ↔
      Reads .blank [] (rows 8 (bytesAt m buffer bufferlen))
        (vals (bytesAt m buffer bufferlen)) := by
  constructor
  · rintro ⟨text, hprints, hread⟩
    rw [carryPrints_iff.mp hprints] at hread
    rcases scan_carryRows_mode (rows 8 (bytesAt m buffer bufferlen)) with hmode | hopen
    · rw [arrayDef_of_scan comment (Prod.ext hmode rfl)] at hread
      obtain ⟨ns, helems, hdef⟩ := Option.map_eq_some_iff.mp hread
      have hns : ns = vals (bytesAt m buffer bufferlen) := congrArg ArrayDef.elems hdef
      exact ⟨hmode, hns ▸ helems⟩
    · rw [tokens_of_open comment hopen] at hread
      cases hread
  · rintro ⟨hmode, helems⟩
    refine ⟨_, carryPrints_iff.mpr rfl, ?_⟩
    rw [List.nil_append] at helems
    rw [arrayDef_of_scan comment (Prod.ext hmode rfl), helems]
    rfl

theorem reads_of_quiet {rs : List (List UInt8)} (h : ∀ r ∈ rs, r.length ≤ 8 ∧ Quiet .blank r) :
    Reads .blank [] rs (vals rs.flatten) := by
  rw [Reads, scan_carryRows_of_quiet h, List.nil_append, elements_cellTokens]
  exact ⟨rfl, congrArg some (List.append_nil _)⟩

theorem reads_of_replaces {qs : List (List UInt8)} {r s : List UInt8}
    (hlen : ∀ q ∈ qs ++ [r, s], q.length ≤ 8) (hqs : ∀ q ∈ qs, Quiet .blank q)
    (h : Replaces r s) : Reads .blank [] (qs ++ [r, s]) (vals (qs ++ [r, s]).flatten) := by
  obtain ⟨hopens, hquiet, helems⟩ := h
  have hquiets := scan_carryRows_of_quiet fun q hq =>
    ⟨hlen q (List.mem_append_left _ hq), hqs q hq⟩
  have hclose : scan .slash (ascii "*/\n") = (.block, []) := rfl
  have hr : scan .blank (carryLine r ++ [10]) =
      (.block, cellTokens r ++ (columnScan .blank r).2) := by
    rw [scan_carryLine (hlen r (by simp)) (scan_carryFront r), hopens, hclose, List.append_nil]
  have hs : scan .block (carryLine s ++ [10]) = (.blank, []) :=
    scan_carryLine_of_quiet (hlen s (by simp)) (scan_carryFront_block s) hquiet
  have hrows : carryRows (qs ++ [r, s]) =
      carryRows qs ++ ((carryLine r ++ [10]) ++ (carryLine s ++ [10])) := by
    simp [carryRows]
  have hvals : vals (qs ++ [r, s]).flatten = vals qs.flatten ++ (vals r ++ vals s) := by
    simp [vals]
  rw [Reads, hrows, scan_append_blank hquiets, scan_append, hr, hs, hvals]
  refine ⟨rfl, ?_⟩
  rw [List.nil_append, List.append_nil, List.append_assoc, elements_cellTokens, List.append_assoc,
    elements_cellTokens, endTokens, helems]
  rfl

theorem length_of_mem_carry {bytes r : List UInt8} (hr : r ∈ rows 8 bytes) :
    r ≠ [] ∧ r.length ≤ 8 :=
  (length_of_mem_rows (by norm_num) hr).imp_left List.length_pos_iff.mp

/-- The rows of bytes give the bytes if they are quiet. -/
theorem reads_rows_of_quiet {bytes : List UInt8} (h : ∀ r ∈ rows 8 bytes, Quiet .blank r) :
    Reads .blank [] (rows 8 bytes) (vals bytes) := by
  have hreads := reads_of_quiet fun r hr => ⟨(length_of_mem_carry hr).2, h r hr⟩
  rwa [flatten_rows (by norm_num)] at hreads

/-- A buffer without `*/` in its rows can be dumped and reloaded. -/
theorem reloads_of_no_close (comment : Option SingleLine) {m : Mem} {buffer bufferlen : ℕ}
    (h : ∀ r ∈ rows 8 (bytesAt m buffer bufferlen), ¬ [42, 47] <:+: r) :
    Reloads comment m buffer bufferlen :=
  reloads_iff_reads.mpr (reads_rows_of_quiet fun r hr => quiet_of_no_close (h r hr))

theorem quiet_or_replaces_of_reloads {comment : Option SingleLine} {m : Mem}
    {buffer bufferlen : ℕ} (h : Reloads comment m buffer bufferlen) :
    (∀ r ∈ rows 8 (bytesAt m buffer bufferlen), Quiet .blank r) ∨
      ∃ qs r s, rows 8 (bytesAt m buffer bufferlen) = qs ++ [r, s] ∧
        (∀ q ∈ qs, Quiet .blank q) ∧ Replaces r s := by
  apply quiet_or_replaces (fun r hr => length_of_mem_carry hr) (isChain_rows (by norm_num) _)
  rw [flatten_rows (by norm_num)]
  exact reloads_iff_reads.mp h

/-- With plain constants the bytes are read back if all rows are quiet, or if all but the last two
are, and the last but one replaces the last one; and only then. -/
theorem reloads_iff_quiet_or_replaces (comment : Option SingleLine) (m : Mem)
    (buffer bufferlen : ℕ) :
    Reloads comment m buffer bufferlen ↔
      (∀ r ∈ rows 8 (bytesAt m buffer bufferlen), Quiet .blank r) ∨
        ∃ qs r s, rows 8 (bytesAt m buffer bufferlen) = qs ++ [r, s] ∧
          (∀ q ∈ qs, Quiet .blank q) ∧ Replaces r s := by
  refine ⟨quiet_or_replaces_of_reloads, fun h => reloads_iff_reads.mpr ?_⟩
  rcases h with hquiet | ⟨qs, r, s, heq, hqs, hreplaces⟩
  · exact reads_rows_of_quiet hquiet
  · have hlen : ∀ r ∈ rows 8 (bytesAt m buffer bufferlen), r.length ≤ 8 :=
      fun r hr => (length_of_mem_carry hr).2
    have hreads := reads_of_replaces (heq ▸ hlen) hqs hreplaces
    rwa [← heq, flatten_rows (by norm_num)] at hreads

/-- **Dump and reload**: for every buffer whose rows are quiet, and every comment, the printed
definition has the bytes of the buffer as its elements. -/
theorem carrydump_reloads (comment : Option SingleLine) {m : Mem} {buffer bufferlen : ℕ}
    (h : ∀ r ∈ rows 8 (bytesAt m buffer bufferlen), Quiet .blank r) :
    Reloads comment m buffer bufferlen :=
  reloads_iff_reads.mpr (reads_rows_of_quiet h)

/-- The bytes `/*` stay in their comment. -/
theorem carrydump_reloads_open : Reloads none (write (fun _ => 0) 0 [47, 42]) 0 2 :=
  carrydump_reloads none (by decide)

/-- The two bytes `*/`: the row is `/**/*/`, and leaves a `*` and a `/` before the closing brace,
which is no expression. -/
theorem not_reloads_closed : ¬ ∀ (comment : Option SingleLine) (m : Mem) (buffer bufferlen : ℕ),
    Reloads comment m buffer bufferlen := by
  intro h
  have hrows : rows 8 (bytesAt (write (fun _ => 0) 0 [42, 47]) 0 2) = [[42, 47]] := by decide
  have hreads := quiet_or_replaces_of_reloads (h none (write (fun _ => 0) 0 [42, 47]) 0 2)
  rw [hrows] at hreads
  rcases hreads with hquiet | ⟨qs, r, s, heq, -⟩
  · exact absurd (hquiet [42, 47] (.head _)) (by decide)
  · have hlen := congrArg List.length heq
    simp at hlen

/-- `*/0x07,/` and a 7: the comment that the first row opens hides the 7, which stands in that
row's characters. -/
example : Replaces (ascii "*/0x07,/") [7] ∧ ¬ Quiet .blank (ascii "*/0x07,/") := by decide

end Hspp
