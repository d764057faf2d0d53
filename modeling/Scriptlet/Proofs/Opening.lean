import Scriptlet.Proofs.Rendering

set_option autoImplicit false

/-! # Which arrays the text of a value opens

Writing a value opens the arrays whose elements it comes to. These are the arrays that the outline
of the value shows with their elements (`Heap.arrayOpens_iff_unfolds`), and they are all that can be
reached from the value (`Heap.opens_iff_reaches`): where the outline has only a mark, the array
stands in itself, so it is shown further out (`Outline.Occurs.unfolds`). -/

namespace Scriptlet

/-- The array stands in the outline with its elements. -/
def Outline.Unfolds (o : Outline) (a : Handle) : Prop :=
  ∃ above items, o.Occurs above (.full a items)

namespace Outline

variable {heap : Heap} {a b : Handle} {above : List Handle} {v : Value} {o part : Outline}
  {items : List Outline}

/-! ## Parts of an outline -/

theorem Occurs.of_item (hitem : o ∈ items) (h : o.Occurs above part) :
    ∃ above', (full b items).Occurs above' part := by
  induction h with
  | root => exact ⟨_, .item .root hitem⟩
  | item _ hmem ih =>
    obtain ⟨above', hocc⟩ := ih
    exact ⟨_, .item hocc hmem⟩

theorem Occurs.eq_or_item (h : (full b items).Occurs above part) :
    part = full b items ∨ ∃ o ∈ items, ∃ above', o.Occurs above' part := by
  induction h with
  | root => exact .inl rfl
  | item _ hmem ih =>
    rcases ih with heq | ⟨o, ho, above', hocc⟩
    · obtain ⟨rfl, rfl⟩ := full.inj heq
      exact .inr ⟨_, hmem, [], .root⟩
    · exact .inr ⟨o, ho, _, .item hocc hmem⟩

theorem unfolds_full_iff : (full b items).Unfolds a ↔ b = a ∨ ∃ o ∈ items, o.Unfolds a := by
  constructor
  · rintro ⟨above, inner, h⟩
    rcases h.eq_or_item with heq | ⟨o, ho, hocc⟩
    · exact .inl (full.inj heq).1.symm
    · exact .inr ⟨o, ho, hocc.imp fun _ h => ⟨inner, h⟩⟩
  · rintro (rfl | ⟨o, ho, above, inner, h⟩)
    · exact ⟨[], items, .root⟩
    · exact (h.of_item ho).imp fun _ h => ⟨inner, h⟩

/-- What is not shown with elements has no parts. -/
theorem not_unfolds (hleaf : ∀ b items, o ≠ full b items) : ¬o.Unfolds a := by
  rintro ⟨above, items, h⟩
  suffices hself : ∀ above part, o.Occurs above part → part = o from
    hleaf a items (hself _ _ h).symm
  intro above part h
  induction h with
  | root => rfl
  | item _ _ ih => exact absurd ih.symm (hleaf _ _)

/-- Each of the arrays that a part stands in is shown around it. -/
theorem Occurs.unfolds (h : o.Occurs above part) (ha : a ∈ above) : o.Unfolds a := by
  induction h with
  | root => exact absurd ha List.not_mem_nil
  | item hocc _ ih =>
    rcases List.mem_cons.1 ha with rfl | ha
    · exact ⟨_, _, hocc⟩
    · exact ih ha

/-! ## Arrays that can be reached -/

theorem Depicts.reaches (h : o.Depicts heap v) (hoccurs : o.Occurs above part) :
    Relation.ReflTransGen heap.HasElement v part.value := by
  induction hoccurs with
  | root => exact h.value ▸ .refl
  | item hocc hmem ih =>
    exact ih.tail ⟨_, rfl, h.elements _ _ _ hocc ▸ List.mem_map_of_mem hmem⟩

/-- An array that occurs is shown there, or further out if it is marked there. -/
theorem Depicts.unfolds_of_occurs (h : o.Depicts heap v) (hoccurs : o.Occurs above part)
    (hvalue : part.value = .array a) : o.Unfolds a := by
  cases part with
  | plain w =>
    have hkind : w.kind = .array := congrArg Value.kind hvalue
    exact absurd hkind (h.plain _ _ hoccurs)
  | marked b =>
    obtain rfl := Value.array.inj hvalue
    exact hoccurs.unfolds ((h.marked _ _ b hoccurs rfl).1 rfl)
  | full b items =>
    obtain rfl := Value.array.inj hvalue
    exact ⟨_, _, hoccurs⟩

/-- Whatever can be reached from the value occurs in the outline. -/
theorem Depicts.exists_occurs (h : o.Depicts heap v) {w : Value}
    (hreach : Relation.ReflTransGen heap.HasElement v w) :
    ∃ above part, o.Occurs above part ∧ part.value = w := by
  induction hreach with
  | refl => exact ⟨[], o, .root, h.value⟩
  | tail _ helement ih =>
    obtain ⟨b, rfl, hmem⟩ := helement
    obtain ⟨above, part, hocc, hvalue⟩ := ih
    obtain ⟨above, items, hocc⟩ := h.unfolds_of_occurs hocc hvalue
    rw [← h.elements _ _ _ hocc] at hmem
    obtain ⟨item, hitem, rfl⟩ := List.mem_map.1 hmem
    exact ⟨_, item, .item hocc hitem, rfl⟩

/-- An outline shows the arrays that can be reached from the value. -/
theorem Depicts.unfolds_iff (h : o.Depicts heap v) :
    o.Unfolds a ↔ Relation.ReflTransGen heap.HasElement v (.array a) := by
  constructor
  · rintro ⟨above, items, hocc⟩
    exact h.reaches hocc
  · intro hreach
    obtain ⟨above, part, hocc, hvalue⟩ := h.exists_occurs hreach
    exact h.unfolds_of_occurs hocc hvalue

end Outline

/-! ## Opening arrays -/

namespace Heap

variable {heap : Heap} {held : Handle} {v : Value}

/-- The search for an array goes through the outline that writing follows. -/
theorem arrayOpens_iff_unfolds (budget : Nat) (above : List Handle) (v : Value) :
    v.isArrayWith (heap.arrayOpens held budget above) = true ↔
      (heap.outline budget above v).Unfolds held := by
  induction budget generalizing above v with
  | zero =>
    have hclosed : v.isArrayWith (heap.arrayOpens held 0 above) = false := by cases v <;> rfl
    have hleaf : ∀ b items, heap.outline 0 above v ≠ .full b items := by cases v <;> simp [outline]
    simp [hclosed, Outline.not_unfolds hleaf]
  | succ budget ih =>
    cases v with
    | array a =>
      rw [Value.isArrayWith, arrayOpens, outline]
      by_cases hmem : a ∈ above
      · simp [hmem, Outline.not_unfolds]
      · simp only [hmem, if_false, Bool.or_eq_true, beq_iff_eq, List.any_eq_true, ih,
          Outline.unfolds_full_iff, List.mem_map, exists_exists_and_eq_and]
    | _ => simp [Value.isArrayWith, outline, Outline.not_unfolds]

/-- Writing a value opens an array if and only if the array can be reached from the value. -/
theorem opens_iff_reaches :
    heap.opens held v = true ↔ Relation.ReflTransGen heap.HasElement v (.array held) := by
  have hfaithful : (heap.outline (heap.cells.size + 1) [] v).Faithful heap [] :=
    faithful_outline heap.isPath_nil (by simp) v
  have hdepicts := hfaithful.depicts
  rw [value_outline] at hdepicts
  rw [opens, arrayOpens_iff_unfolds, hdepicts.unfolds_iff]

end Heap

end Scriptlet
