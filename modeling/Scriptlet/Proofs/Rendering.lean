import Scriptlet.Proofs.Data
import Scriptlet.Value.Render

set_option autoImplicit false

/-! # How arrays inside themselves are written

The heap is a graph, but what is written of a value is a tree, its `Outline`: an array stands in it
with all of its elements, or as a mark. An outline is faithful if the marks are exactly the arrays
that stand inside themselves. Writing follows a faithful outline (`faithful_outline`): the arrays
around a place are different and all in the heap, so there are never more of them than arrays, and
the bound on the depth is not reached. Each value has one faithful outline only, and where no cycle
can be reached it has no marks. -/

namespace Scriptlet

/-! ## Outlines -/

/-- What is written of a value. -/
inductive Outline where
  /-- a value that is not an array -/
  | plain (v : Value)
  /-- an array of which only a mark is written -/
  | marked (a : Handle)
  /-- an array that is written with its elements -/
  | full (a : Handle) (items : List Outline)

namespace Outline

/-- The value that the outline is of. -/
def value : Outline → Value
  | plain v => v
  | marked a => .array a
  | full a _ => .array a

mutual

/-- The outline as text; only texts inside arrays are quoted. -/
def text (quoted : Bool) : Outline → String
  | plain v => v.renderWith (fun _ => Heap.cycleMark) quoted
  | marked _ => Heap.cycleMark
  | full _ items => "[" ++ String.intercalate ", " (itemTexts items) ++ "]"

def itemTexts : List Outline → List String
  | [] => []
  | o :: items => text true o :: itemTexts items

end

theorem itemTexts_eq_map (items : List Outline) : itemTexts items = items.map (text true) := by
  induction items with
  | nil => rfl
  | cons o items ih => rw [itemTexts, ih, List.map_cons]

/-- An outline inside another one, with the arrays that it stands in, from the inside out. -/
inductive Occurs (root : Outline) : List Handle → Outline → Prop
  | root : Occurs root [] root
  | item {above : List Handle} {a : Handle} {items : List Outline} {o : Outline} :
      Occurs root above (.full a items) → o ∈ items → Occurs root (a :: above) o

/-- The outline shows a value with all elements of its arrays, and marks an array exactly if it
    stands inside itself. -/
structure Depicts (heap : Heap) (v : Value) (o : Outline) : Prop where
  value : o.value = v
  elements : ∀ above a items, o.Occurs above (.full a items) →
    items.map Outline.value = (heap.elements a).toList
  plain : ∀ above w, o.Occurs above (.plain w) → w.kind ≠ .array
  marked : ∀ above item a, o.Occurs above item → item.value = .array a →
    (item = .marked a ↔ a ∈ above)

/-! ### Faithful outlines -/

/-- The same of an outline that stands in the given arrays, as a recursion on the outline. -/
inductive Faithful (heap : Heap) : List Handle → Outline → Prop
  | plain {above : List Handle} {v : Value} : v.kind ≠ .array → Faithful heap above (.plain v)
  | marked {above : List Handle} {a : Handle} : a ∈ above → Faithful heap above (.marked a)
  | full {above : List Handle} {a : Handle} {items : List Outline} :
      a ∉ above → items.map Outline.value = (heap.elements a).toList →
        (∀ o ∈ items, Faithful heap (a :: above) o) → Faithful heap above (.full a items)

variable {heap : Heap} {above : List Handle} {o o' : Outline}

theorem Faithful.occurs (h : o.Faithful heap []) (hoccurs : o.Occurs above o') :
    o'.Faithful heap above := by
  induction hoccurs with
  | root => exact h
  | item _ hmem ih =>
    cases ih with
    | full _ _ hitems => exact hitems _ hmem

theorem Faithful.marked_iff {a : Handle} (h : o.Faithful heap above) (hvalue : o.value = .array a) :
    o = .marked a ↔ a ∈ above := by
  cases h with
  | plain hkind => exact absurd (congrArg Value.kind hvalue) hkind
  | marked hmem =>
    obtain rfl := Value.array.inj hvalue
    simp [hmem]
  | full hmem _ _ =>
    obtain rfl := Value.array.inj hvalue
    simp [hmem]

theorem Faithful.depicts (h : o.Faithful heap []) : o.Depicts heap o.value where
  value := rfl
  elements above a items hoccurs := by
    cases h.occurs hoccurs with
    | full _ helements _ => exact helements
  plain above w hoccurs := by
    cases h.occurs hoccurs with
    | plain hkind => exact hkind
  marked above item a hoccurs hvalue := (h.occurs hoccurs).marked_iff hvalue

theorem sizeOf_lt_of_mem {a : Handle} {items : List Outline} (h : o ∈ items) :
    sizeOf o < sizeOf (full a items) := by
  have hlt := List.sizeOf_lt_of_mem h
  rw [full.sizeOf_spec]
  omega

theorem Depicts.faithful {v : Value} (h : o.Depicts heap v) {above : List Handle} {part : Outline}
    (hoccurs : o.Occurs above part) : part.Faithful heap above := by
  match part with
  | .plain w => exact .plain (h.plain _ _ hoccurs)
  | .marked a => exact .marked ((h.marked _ _ a hoccurs rfl).1 rfl)
  | .full a items =>
    have hnew : a ∉ above := fun hmem => by
      simpa using (h.marked _ _ a hoccurs rfl).2 hmem
    exact .full hnew (h.elements _ _ _ hoccurs) fun p hp => h.faithful (.item hoccurs hp)
termination_by sizeOf part
decreasing_by exact sizeOf_lt_of_mem hp

/-- Lists of outlines of the same values are the same if their members are. -/
theorem items_unique {items items' : List Outline}
    (unique : ∀ o ∈ items, ∀ o' ∈ items', o.value = o'.value → o = o')
    (hvalues : items.map value = items'.map value) : items = items' := by
  induction items generalizing items' with
  | nil => exact (List.map_eq_nil_iff.1 hvalues.symm).symm
  | cons o items ih =>
    cases items' with
    | nil => simp at hvalues
    | cons o' items' =>
      rw [List.map_cons, List.map_cons, List.cons.injEq] at hvalues
      rw [unique o (List.mem_cons_self ..) o' (List.mem_cons_self ..) hvalues.1,
        ih (fun p hp p' hp' =>
          unique p (List.mem_cons_of_mem _ hp) p' (List.mem_cons_of_mem _ hp')) hvalues.2]

/-- There is one faithful outline of a value. -/
theorem Faithful.unique (h : o.Faithful heap above) (h' : o'.Faithful heap above)
    (hvalue : o.value = o'.value) : o = o' := by
  induction h generalizing o' with
  | plain hkind =>
    cases h' with
    | plain _ => exact congrArg Outline.plain hvalue
    | _ => exact absurd (congrArg Value.kind hvalue) hkind
  | marked hmem => exact ((h'.marked_iff hvalue.symm).2 hmem).symm
  | @full above a items hmem helements _ ih =>
    cases h' with
    | plain hkind => exact absurd (congrArg Value.kind hvalue.symm) hkind
    | marked hmem' => exact absurd (Value.array.inj hvalue ▸ hmem') hmem
    | full _ helements' hitems' =>
      obtain rfl := Value.array.inj hvalue
      rw [items_unique (fun o ho o' ho' => ih o ho (hitems' o' ho'))
        (helements.trans helements'.symm)]

end Outline

/-! ## Writing follows a faithful outline -/

namespace Heap

variable {heap : Heap} {above : List Handle} {budget : Nat} {v : Value}

/-- The outline that writing follows, at most `budget` arrays deep. -/
def outline (heap : Heap) : (budget : Nat) → (above : List Handle) → Value → Outline
  | 0, _, .array a => .marked a
  | budget + 1, above, .array a =>
    if a ∈ above then .marked a
    else .full a ((heap.elements a).toList.map (heap.outline budget (a :: above)))
  | _, _, v => .plain v

theorem value_outline (heap : Heap) (budget : Nat) (above : List Handle) (v : Value) :
    (heap.outline budget above v).value = v := by
  cases v with
  | array a =>
    cases budget with
    | zero => rfl
    | succ budget =>
      rw [outline]
      split <;> rfl
  | _ => cases budget <;> rfl

theorem text_outline (heap : Heap) (budget : Nat) (above : List Handle) (quoted : Bool)
    (v : Value) :
    (heap.outline budget above v).text quoted =
      v.renderWith (heap.renderArray budget above) quoted := by
  induction budget generalizing above quoted v with
  | zero => cases v <;> rfl
  | succ budget ih =>
    cases v with
    | array a =>
      rw [outline, Value.renderWith, renderArray]
      split
      · rfl
      · simp only [Outline.text, Outline.itemTexts_eq_map, List.map_map]
        congr 4
        funext w
        exact ih (a :: above) true w
    | _ => rfl

/-- Arrays around a place: they are different, and they were made. -/
structure IsPath (heap : Heap) (above : List Handle) : Prop where
  nodup : above.Nodup
  made : ∀ a ∈ above, a.index < heap.cells.size

theorem isPath_nil (heap : Heap) : heap.IsPath [] where
  nodup := List.nodup_nil
  made _ ha := absurd ha List.not_mem_nil

theorem IsPath.length_le (h : heap.IsPath above) : above.length ≤ heap.cells.size := by
  have hnodup : (above.map Handle.index).Nodup :=
    h.nodup.map fun a b heq => by cases a; cases b; exact congrArg Handle.mk heq
  have hsub : above.map Handle.index ⊆ List.range heap.cells.size := by
    intro index hindex
    obtain ⟨a, ha, rfl⟩ := List.mem_map.1 hindex
    exact List.mem_range.2 (h.made a ha)
  simpa using (hnodup.subperm hsub).length_le

theorem IsPath.cons (h : heap.IsPath above) {a : Handle} (hnew : a ∉ above)
    (hmade : a.index < heap.cells.size) : heap.IsPath (a :: above) :=
  ⟨List.nodup_cons.2 ⟨hnew, h.nodup⟩, List.forall_mem_cons.2 ⟨hmade, h.made⟩⟩

/-- The budget and the arrays around are more than all arrays, so the budget is never used up. -/
theorem faithful_outline (h : heap.IsPath above) (hbudget : heap.cells.size < budget + above.length)
    (v : Value) : (heap.outline budget above v).Faithful heap above := by
  induction budget generalizing above v with
  | zero =>
    have hle := h.length_le
    omega
  | succ budget ih =>
    cases v with
    | array a =>
      rw [outline]
      split
      · next hmem => exact .marked hmem
      · next hnew =>
        refine .full hnew ?_ fun o ho => ?_
        · simp [List.map_map, Function.comp_def, value_outline]
        · obtain ⟨w, hw, rfl⟩ := List.mem_map.1 ho
          have hmade := lt_of_mem_elements (Array.mem_toList_iff.1 hw)
          refine ih (h.cons hnew hmade) ?_ w
          rw [List.length_cons]
          omega
    | _ => exact .plain (by simp [Value.kind])

/-- With whatever budget is enough, writing follows one and the same outline. -/
theorem outline_eq (hbudget : heap.cells.size < budget) (v : Value) :
    heap.outline budget [] v = heap.outline (heap.cells.size + 1) [] v := by
  have hfaithful : (heap.outline budget [] v).Faithful heap [] :=
    faithful_outline heap.isPath_nil (by simpa using hbudget) v
  refine hfaithful.unique (faithful_outline heap.isPath_nil (by simp) v) ?_
  rw [value_outline, value_outline]

end Heap

/-! ## Without cycles -/

/-- No array of the outline is marked. -/
inductive Outline.Unmarked : Outline → Prop
  | plain (v : Value) : Unmarked (.plain v)
  | full {a : Handle} {items : List Outline} :
      (∀ o ∈ items, Unmarked o) → Unmarked (.full a items)

namespace Outline

variable {heap : Heap} {above : List Handle} {o o' : Outline}

theorem Unmarked.occurs (h : o.Unmarked) (hoccurs : o.Occurs above o') : o'.Unmarked := by
  induction hoccurs with
  | root => exact h
  | item _ hmem ih =>
    cases ih with
    | full hitems => exact hitems _ hmem

/-- Only what contains itself can be marked. -/
theorem Faithful.unmarked (h : o.Faithful heap above)
    (habove : ∀ a ∈ above, Relation.TransGen heap.HasElement (.array a) o.value)
    (hacyclic : heap.Acyclic o.value) : o.Unmarked := by
  induction h with
  | plain _ => exact .plain _
  | marked hmem => exact absurd (habove _ hmem) (hacyclic _ .refl)
  | @full above a items _ helements _ ih =>
    refine .full fun o ho => ?_
    have helement : heap.HasElement (.array a) o.value :=
      ⟨a, rfl, helements ▸ List.mem_map_of_mem ho⟩
    refine ih o ho (List.forall_mem_cons.2 ⟨.single helement, fun b hb => ?_⟩)
      (hacyclic.element helement)
    exact (habove b hb).tail helement

end Outline

namespace Heap

/-- The text of a value, `depth` levels of arrays deep, whatever arrays it stands in. -/
def renderPlain (heap : Heap) : (depth : Nat) → (quoted : Bool) → Value → Option String
  | 0, _, .array _ => none
  | depth + 1, _, .array a =>
    ((heap.elements a).toList.mapM (heap.renderPlain depth true)).map fun items =>
      "[" ++ String.intercalate ", " items ++ "]"
  | _, quoted, v => some (v.renderWith (fun _ => cycleMark) quoted)

variable {heap : Heap} {above : List Handle}

theorem mapM_renderPlain {depth : Nat} {items : List Outline}
    (h : ∀ o ∈ items, heap.renderPlain depth true o.value = some (o.text true)) :
    (items.map Outline.value).mapM (heap.renderPlain depth true) =
      some (items.map (Outline.text true)) := by
  induction items with
  | nil => rfl
  | cons o items ih =>
    obtain ⟨hfirst, hrest⟩ := List.forall_mem_cons.1 h
    simp [hfirst, ih hrest]

/-- Without marks, an outline is followed in the same way without a look at the arrays around. -/
theorem renderPlain_of_unmarked {o : Outline} (h : o.Faithful heap above) (hunmarked : o.Unmarked)
    (quoted : Bool) {depth : Nat} (hdepth : sizeOf o ≤ depth) :
    heap.renderPlain depth quoted o.value = some (o.text quoted) := by
  induction h generalizing quoted depth with
  | @plain above v hkind =>
    cases v with
    | array a => exact absurd rfl hkind
    | _ => cases depth <;> rfl
  | marked _ => nomatch hunmarked
  | @full above a items _ helements _ ih =>
    cases hunmarked with
    | full hitems =>
      have hpos : 0 < sizeOf (Outline.full a items) := by
        rw [Outline.full.sizeOf_spec]
        omega
      obtain ⟨less, rfl⟩ : ∃ less, depth = less + 1 := ⟨depth - 1, by omega⟩
      have hmapM := mapM_renderPlain fun o ho =>
        ih o ho (hitems o ho) true (Nat.le_of_lt_succ
          (Nat.lt_of_lt_of_le (Outline.sizeOf_lt_of_mem ho) hdepth))
      rw [Outline.value, renderPlain, ← helements, hmapM, Outline.text, Outline.itemTexts_eq_map]
      rfl

end Heap

/-- Writing a value comes to an end on every heap: it follows the one finite outline in which an
    array is marked exactly if it stands inside itself, and a higher bound on the depth changes
    nothing. Where no cycle can be reached nothing is marked, and the text is what it is without a
    look at the arrays around. -/
theorem rendering_marks_cycles (heap : Heap) (v : Value) :
    ∃ o : Outline, o.Depicts heap v ∧ (∀ o' : Outline, o'.Depicts heap v → o' = o) ∧
      heap.display v = o.text false ∧ heap.inspect v = o.text true ∧
      (∀ budget, heap.cells.size < budget → ∀ quoted,
        v.renderWith (heap.renderArray budget []) quoted = o.text quoted) ∧
      (heap.Acyclic v → (∀ above a, ¬o.Occurs above (.marked a)) ∧
        ∃ depth, ∀ more, heap.renderPlain (depth + more) false v = some (heap.display v) ∧
          heap.renderPlain (depth + more) true v = some (heap.inspect v)) := by
  have hpath : heap.IsPath [] := ⟨List.nodup_nil, fun a ha => absurd ha List.not_mem_nil⟩
  have hfaithful : (heap.outline (heap.cells.size + 1) [] v).Faithful heap [] :=
    Heap.faithful_outline hpath (by simp) v
  have hvalue := Heap.value_outline heap (heap.cells.size + 1) [] v
  have hdisplay : heap.display v = (heap.outline (heap.cells.size + 1) [] v).text false :=
    (Heap.text_outline heap _ [] false v).symm
  have hinspect : heap.inspect v = (heap.outline (heap.cells.size + 1) [] v).text true :=
    (Heap.text_outline heap _ [] true v).symm
  refine ⟨heap.outline (heap.cells.size + 1) [] v, ?_, ?_, hdisplay, hinspect, ?_, ?_⟩
  · simpa [hvalue] using hfaithful.depicts
  · intro o' h'
    exact (h'.faithful .root).unique hfaithful (h'.value.trans hvalue.symm)
  · intro budget hbudget quoted
    rw [← Heap.text_outline, Heap.outline_eq hbudget]
  · intro hacyclic
    rw [hdisplay, hinspect]
    generalize heap.outline (heap.cells.size + 1) [] v = o at hfaithful hvalue ⊢
    subst hvalue
    have hunmarked := hfaithful.unmarked (fun a ha => absurd ha List.not_mem_nil) hacyclic
    refine ⟨fun above a hoccurs => ?_, sizeOf o, fun more => ?_⟩
    · exact nomatch hunmarked.occurs hoccurs
    · exact ⟨Heap.renderPlain_of_unmarked hfaithful hunmarked false (Nat.le_add_right ..),
        Heap.renderPlain_of_unmarked hfaithful hunmarked true (Nat.le_add_right ..)⟩

/-- An array with a shared element, and one that contains itself and the first. -/
def knottedArrays : Heap :=
  ⟨#[#[.int 1], #[.array ⟨0⟩, .array ⟨0⟩], #[.array ⟨2⟩, .array ⟨1⟩, .text "a"]]⟩

theorem knottedArrays_holds_shared :
    knottedArrays.Holds (.array ⟨1⟩) (.list [.list [.number 1], .list [.number 1]]) := by
  simp [knottedArrays, Heap.elements]

theorem rendering_marks_cycles_knotted :
    knottedArrays.Acyclic (.array ⟨1⟩) ∧
      (∃ depth, knottedArrays.renderPlain depth false (.array ⟨1⟩) = some "[[1], [1]]") ∧
      ∃ o : Outline, o.Depicts knottedArrays (.array ⟨2⟩) ∧
        o.text false = "[[...], [[1], [1]], 'a']" := by
  have hacyclic := (Heap.plain_iff_exists_holds.2 ⟨_, knottedArrays_holds_shared⟩).acyclic
  have hshared : knottedArrays.display (.array ⟨1⟩) = "[[1], [1]]" := by decide +kernel
  have hknot : knottedArrays.display (.array ⟨2⟩) = "[[...], [[1], [1]], 'a']" := by decide +kernel
  obtain ⟨_, -, -, -, -, -, hplain⟩ := rendering_marks_cycles knottedArrays (.array ⟨1⟩)
  obtain ⟨-, depth, hdepth⟩ := hplain hacyclic
  obtain ⟨o, hdepicts, -, hdisplay, -⟩ := rendering_marks_cycles knottedArrays (.array ⟨2⟩)
  exact ⟨hacyclic, ⟨depth, hshared ▸ (hdepth 0).1⟩, o, hdepicts, hdisplay ▸ hknot⟩

end Scriptlet
