import MultiMLton.Basis.SequenceConcat
import MultiMLton.Basis.SliceSearch

/-!
# Taking slices apart and joining them

`fields` and `concatWith` are inverse to each other, for a separator that is in none of the fields, and
`tokens` and `concat` drop the separators: `fields_concatWith`.
-/

namespace MultiMLton.Basis.Sequence.Slice

open MultiMLton.Lib List

variable {α : Type} {s : SeqIndex} {sl : Slice α} {rs : List (Slice α)}

theorem map_elems_of_forall₂ {xss : List (List α)} (h : List.Forall₂ (Of s sl) xss rs) :
    rs.map elems = xss ∧ ∀ r ∈ rs, r.Valid s := by
  induction h with
  | nil => exact ⟨rfl, by simp⟩
  | cons hr _ ih =>
    exact ⟨by rw [map_cons, hr.elems_eq, ih.1], forall_mem_cons.2 ⟨hr.valid, ih.2⟩⟩

theorem Valid.validLength_elems (h : sl.Valid s) : ValidLength s sl.elems.length := by
  have := h.length_elems
  obtain ⟨⟨-, hlt⟩, h0, h1, h2⟩ := h
  exact ⟨by omega, by omega⟩

theorem flatten_splitOnP (p : α → Bool) (xs : List α) :
    (xs.splitOnP p).flatten = xs.filter (!p ·) := by
  induction xs with
  | nil => simp
  | cons x xs ih =>
    rw [splitOnP_cons_eq_if_modifyHead, filter_cons]
    cases hp : p x with
    | true => simpa using ih
    | false =>
      cases hsplit : xs.splitOnP p with
      | nil => exact absurd hsplit (splitOnP_ne_nil p xs)
      | cons ys yss => simp [← ih, hsplit]

/-- **What is taken apart is joined again**, and what is joined is taken apart again. -/
theorem fields_concatWith [DecidableEq α] (isMutable : Bool) {a : α} (ha : ValidLength s [a].length) :
    (∀ sl : Slice α, sl.Valid s → ∃ rs, Yields (fields s (· == a) sl) (.ok rs) ∧
      concatWith s isMutable [a] rs = .ok sl.elems) ∧
    (∀ rs : List (Slice α), rs ≠ [] → (∀ r ∈ rs, r.Valid s ∧ a ∉ r.elems) →
      ValidLength s ([a].intercalate (rs.map elems)).length →
      ∃ xs, concatWith s isMutable [a] rs = .ok xs ∧
        ∃ rs', Yields (fields s (· == a) (full xs)) (.ok rs') ∧ rs'.map elems = rs.map elems) ∧
    ∀ (sl : Slice α) (p : α → Bool), sl.Valid s → ∃ rs, Yields (tokens s p sl) (.ok rs) ∧
      concat s isMutable rs = .ok (sl.elems.filter (!p ·)) := by
  have hjoin {rs : List (Slice α)} (hrs : ∀ r ∈ rs, r.Valid s)
      (h : ValidLength s ([a].intercalate (rs.map elems)).length) :
      concatWith s isMutable [a] rs = .ok ([a].intercalate (rs.map elems)) :=
    ((concatWith_iff ha hrs).2 fun hnot => absurd h hnot).trans (if_pos h)
  refine ⟨fun sl h => ?_, fun rs hne hrs hvalid => ?_, fun sl p h => ?_⟩
  · obtain ⟨rs, hfields, hof⟩ := fields_eq h (· == a)
    obtain ⟨helems, hrs⟩ := map_elems_of_forall₂ hof
    have heq : [a].intercalate (rs.map elems) = sl.elems := by
      rw [helems, ← List.splitOn_eq_splitOnP, List.intercalate_splitOn]
    exact ⟨rs, hfields, heq ▸ hjoin hrs (heq ▸ h.validLength_elems)⟩
  · obtain ⟨rs', hfields, hof⟩ := fields_eq (valid_full hvalid) (· == a)
    refine ⟨_, hjoin (fun r hr => (hrs r hr).1) hvalid, rs', hfields, ?_⟩
    rw [(map_elems_of_forall₂ hof).1, elems_full, ← List.splitOn_eq_splitOnP,
      List.splitOn_intercalate]
    · exact List.forall_mem_map.2 fun r hr => (hrs r hr).2
    · simpa using hne
  · obtain ⟨rs, htokens, hof⟩ := tokens_eq h p
    obtain ⟨helems, hrs⟩ := map_elems_of_forall₂ hof
    have heq : rs.flatMap elems = sl.elems.filter (!p ·) := by
      rw [List.flatMap_def, helems, List.flatten_filter_not_isEmpty, flatten_splitOnP]
    have hvalid : ValidLength s (rs.flatMap elems).length := by
      have hlen := List.length_filter_le (!p ·) sl.elems
      obtain ⟨-, hlt⟩ := h.validLength_elems
      rw [heq]
      exact ⟨by omega, by omega⟩
    exact ⟨rs, htokens,
      heq ▸ ((concat_iff hrs).2 fun hnot => absurd hvalid hnot).trans (if_pos hvalid)⟩

theorem fields_concatWith_slash :
    ∃ rs, Yields (fields .int32 (· == '/') ⟨['a', '/', '/', 'b'], 0, 4⟩) (.ok rs) ∧
      concatWith .int32 false ['/'] rs = .ok ['a', '/', '/', 'b'] :=
  (fields_concatWith false (by decide)).1 _ ⟨by decide, by decide, by decide, by decide⟩

end MultiMLton.Basis.Sequence.Slice
