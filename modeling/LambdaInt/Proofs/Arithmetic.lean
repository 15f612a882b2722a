import LambdaInt.Step

/-!
The arithmetic of the machine against that of whole numbers. Addition has a result exactly when the
sum is an integer of the machine, and then it is the sum; so a builtin comes to what its rule says,
and to nothing else.
-/

namespace LambdaInt.Builtin

theorem add?_eq_some_iff {m n r : Int64} : add? m n = some r ↔ r.toInt = m.toInt + n.toInt := by
  rw [add?]
  constructor
  · intro h
    split at h
    · rename_i hfits
      obtain ⟨hmin, hmax⟩ := hfits
      cases h
      exact Int64.toInt_ofInt_of_le hmin (Int.lt_of_le_of_lt hmax (by decide))
    · cases h
  · intro h
    rw [if_pos ⟨h ▸ Int64.minValue_le_toInt r, h ▸ Int64.toInt_le r⟩, ← h, Int64.ofInt_toInt]

theorem sum_nonneg {values : List Int64} (h : ∀ n ∈ values, 0 ≤ n.toInt) :
    0 ≤ (values.map Int64.toInt).sum := by
  refine List.sum_nonneg fun m hm => ?_
  obtain ⟨n, hn, rfl⟩ := List.mem_map.1 hm
  exact h n hn

/-- Adding up comes to the sum of all, by way of the sums of the first parts. -/
theorem foldlM_add?_eq_some_iff {values : List Int64} {acc r : Int64} :
    values.foldlM add? acc = some r ↔
      (∀ first, first <+: values →
        ∃ n : Int64, n.toInt = acc.toInt + (first.map Int64.toInt).sum) ∧
      r.toInt = acc.toInt + (values.map Int64.toInt).sum := by
  induction values generalizing acc with
  | nil => simp [List.prefix_nil, Int64.toInt_inj, eq_comm]
  | cons m values ih =>
      rw [List.foldlM_cons, List.map_cons, List.sum_cons, ← Int.add_assoc]
      constructor
      · intro h
        obtain ⟨next, hnext, hrest⟩ := Option.bind_eq_some_iff.1 h
        obtain ⟨hpartials, hsum⟩ := ih.1 hrest
        rw [add?_eq_some_iff] at hnext
        refine ⟨fun first hfirst => ?_, hnext ▸ hsum⟩
        obtain rfl | ⟨first, rfl, hprefix⟩ := List.prefix_cons_iff.1 hfirst
        · exact ⟨acc, by simp⟩
        · rw [List.map_cons, List.sum_cons, ← Int.add_assoc, ← hnext]
          exact hpartials first hprefix
      · rintro ⟨hpartials, hsum⟩
        obtain ⟨next, hnext⟩ := hpartials [m] (List.cons_prefix_cons.2 ⟨rfl, List.nil_prefix⟩)
        rw [List.map_singleton, List.sum_singleton] at hnext
        refine Option.bind_eq_some_iff.2 ⟨next, add?_eq_some_iff.2 hnext, ih.2 ⟨?_, hnext ▸ hsum⟩⟩
        intro first hfirst
        obtain ⟨n, hn⟩ := hpartials (m :: first) (List.cons_prefix_cons.2 ⟨rfl, hfirst⟩)
        rw [List.map_cons, List.sum_cons, ← Int.add_assoc, ← hnext] at hn
        exact ⟨n, hn⟩

/-- What a builtin is found to come to is what its rule says, and all that its rule says. -/
theorem yields_iff {op : Builtin} {values : List Int64} {value : Int64} :
    op.Yields values value ↔ op.takes values.length = true ∧ op.value? values = some value := by
  constructor
  · intro h
    cases h with
    | plus two partials sum =>
        refine ⟨decide_eq_true two, foldlM_add?_eq_some_iff.2 ?_⟩
        rw [Int64.toInt_zero, Int.zero_add]
        exact ⟨fun first hfirst => by simpa using partials first hfirst, sum⟩
    | increment succ => exact ⟨rfl, add?_eq_some_iff.2 succ⟩
  · rintro ⟨htakes, hvalue⟩
    cases op with
    | plus =>
        obtain ⟨partials, sum⟩ := foldlM_add?_eq_some_iff.1 hvalue
        rw [Int64.toInt_zero, Int.zero_add] at sum
        refine .plus (of_decide_eq_true htakes) (fun first hfirst => ?_) sum
        simpa using partials first hfirst
    | increment =>
        obtain ⟨n, rfl⟩ := List.length_eq_one_iff.1 (beq_iff_eq.1 htakes)
        exact .increment (add?_eq_some_iff.1 hvalue)

theorem Yields.unique {op : Builtin} {values : List Int64} {value value' : Int64}
    (h : op.Yields values value) (h' : op.Yields values value') : value = value' :=
  Option.some.inj ((yields_iff.1 h).2.symm.trans (yields_iff.1 h').2)

/-- No builtin makes a negative integer of integers that are not. -/
theorem Yields.nonneg {op : Builtin} {values : List Int64} {value : Int64}
    (h : op.Yields values value) (hvalues : ∀ n ∈ values, 0 ≤ n.toInt) : 0 ≤ value.toInt := by
  cases h with
  | plus _ _ sum => exact sum ▸ sum_nonneg hvalues
  | increment succ =>
      have hn := hvalues _ List.mem_cons_self
      omega

end LambdaInt.Builtin
