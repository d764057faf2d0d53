import Scriptlet.Proofs.Ends
import Scriptlet.Proofs.FailedUpdates
import Scriptlet.Proofs.PrintedForm
import Scriptlet.Proofs.Rendering
import Scriptlet.Proofs.ValueOrder

set_option autoImplicit false

/-! # Printed data evaluates back to itself

Values are written like literals, although by another printer than that of expressions: a text
stands between single quotes, and nothing in it is escaped. So the text of a value is the literal of
what the value holds, as long as it has one: there are no negative literals, a single quote ends a
text, and arrays may be nested as deep only as the parser goes (`Heap.Writable`). The written value
reads as that literal, and evaluating a literal makes new arrays that hold the same
(`ends_literal`). No array is shared between the two, and none of those that were there is changed.

A `Datum` stands between the two sides. Its text, its lexemes and its literal are put together in
the same way (`Datum.fold`), so that each stage is one induction on it. -/

namespace Scriptlet

/-! ## Values that can be written -/

/-- The value is written as a literal that stands for it: whole numbers are not negative, no text
    has a single quote, and arrays are in the heap and nested at most `depth` deep. -/
inductive Heap.Writable (heap : Heap) : (depth : Nat) → Value → Prop
  | int {depth : Nat} {n : Int64} : 0 ≤ n → heap.Writable depth (.int n)
  | text {depth : Nat} {s : String} : '\'' ∉ s.toList → heap.Writable depth (.text s)
  | array {depth : Nat} {a : Handle} :
      a.index < heap.cells.size → (∀ v ∈ (heap.elements a).toList, heap.Writable depth v) →
        heap.Writable (depth + 1) (.array a)

/-- The same of what values hold. -/
inductive Datum.Writable : (depth : Nat) → Datum → Prop
  | number {depth : Nat} {n : Int64} : 0 ≤ n → Writable depth (.number n)
  | text {depth : Nat} {s : String} : '\'' ∉ s.toList → Writable depth (.text s)
  | list {depth : Nat} {items : List Datum} :
      (∀ d ∈ items, Writable depth d) → Writable (depth + 1) (.list items)

/-- The arrays that the value leads to are in the second heap as they are in the first. -/
def Heap.AgreesOn (heap heap' : Heap) (v : Value) : Prop :=
  ∀ a, Relation.ReflTransGen heap.HasElement v (.array a) →
    a.index < heap'.cells.size ∧ heap'.elements a = heap.elements a

namespace Heap

variable {heap heap' : Heap} {v w : Value} {d : Datum} {depth : Nat}

theorem Writable.exists_holds (h : heap.Writable depth v) : ∃ d, heap.Holds v d := by
  induction h with
  | @int _ n _ => exact ⟨.number n, by simp⟩
  | @text _ s _ => exact ⟨.text s, by simp⟩
  | array _ _ ih =>
    obtain ⟨items, hitems⟩ := exists_forall₂_holds ih
    exact ⟨.list items, by simpa using hitems⟩

theorem Writable.datum (h : heap.Writable depth v) (hd : heap.Holds v d) : d.Writable depth := by
  induction h generalizing d with
  | int hn =>
    obtain rfl := holds_int.1 hd
    exact .number hn
  | text hs =>
    obtain rfl := holds_text.1 hd
    exact .text hs
  | array _ _ ih =>
    obtain ⟨items, rfl, hitems⟩ := holds_array.1 hd
    refine .list fun e he => ?_
    obtain ⟨w, hw, hholds⟩ := exists_of_mem_of_forall₂ hitems.flip he
    exact ih w hw hholds

theorem Writable.element (h : heap.Writable depth v) (helement : heap.HasElement v w) :
    ∃ less, heap.Writable less w := by
  obtain ⟨a, rfl, hmem⟩ := helement
  cases h with
  | array _ helements => exact ⟨_, helements w hmem⟩

theorem Writable.reach (h : heap.Writable depth v)
    (hreach : Relation.ReflTransGen heap.HasElement v w) : ∃ less, heap.Writable less w := by
  induction hreach with
  | refl => exact ⟨depth, h⟩
  | tail _ helement ih =>
    obtain ⟨_, hbetween⟩ := ih
    exact hbetween.element helement

/-! ### In other heaps -/

theorem AgreesOn.element (h : heap.AgreesOn heap' v) (helement : heap.HasElement v w) :
    heap.AgreesOn heap' w :=
  fun a hreach => h a (hreach.head helement)

theorem Holds.agreesOn (h : heap.Holds v d) (hagrees : heap.AgreesOn heap' v) :
    heap'.Holds v d := by
  induction d generalizing v with
  | list items ih =>
    obtain ⟨a, rfl⟩ : ∃ a, v = .array a := by cases v <;> simp at h ⊢
    obtain ⟨_, ⟨⟩, hitems⟩ := holds_array.1 h
    refine holds_array.2 ⟨items, rfl, ?_⟩
    rw [(hagrees a .refl).2]
    refine forall₂_imp_of_mem hitems fun w hw e he hholds => ?_
    exact ih e he hholds (hagrees.element ⟨a, rfl, hw⟩)
  | _ => cases v <;> simp_all

theorem Writable.agreesOn (h : heap.Writable depth v) (hagrees : heap.AgreesOn heap' v) :
    heap'.Writable depth v := by
  induction h with
  | int hn => exact .int hn
  | text hs => exact .text hs
  | @array _ a _ _ ih =>
    obtain ⟨hlt, helements⟩ := hagrees a .refl
    refine .array hlt fun w hw => ?_
    rw [helements] at hw
    exact ih w hw (hagrees.element ⟨a, rfl, hw⟩)

/-- All arrays of such a value have been made, so a heap with more arrays has them, too. -/
theorem Writable.agreesOn_of_extends (h : heap.Writable depth v) (hheap : heap.Extends heap') :
    heap.AgreesOn heap' v := by
  intro a hreach
  obtain ⟨_, ha⟩ := h.reach hreach
  cases ha with
  | array hlt _ => exact ⟨Nat.lt_of_lt_of_le hlt hheap.size_le, hheap.elements a hlt⟩

/-- The value can be written, and it holds the datum. -/
structure Shows (heap : Heap) (depth : Nat) (v : Value) (d : Datum) : Prop where
  writable : heap.Writable depth v
  holds : heap.Holds v d

theorem Shows.extend (h : heap.Shows depth v d) (hheap : heap.Extends heap') :
    heap'.Shows depth v d :=
  have hagrees := h.writable.agreesOn_of_extends hheap
  ⟨h.writable.agreesOn hagrees, h.holds.agreesOn hagrees⟩

end Heap

/-! ## Written data -/

namespace Datum

mutual

/-- What is put together in the way of the datum. -/
def fold {α : Type} (number : Int64 → α) (text : String → α) (list : List α → α) : Datum → α
  | .number n => number n
  | .text s => text s
  | .list items => list (foldItems number text list items)

def foldItems {α : Type} (number : Int64 → α) (text : String → α) (list : List α → α) :
    List Datum → List α
  | [] => []
  | d :: items => fold number text list d :: foldItems number text list items

end

theorem foldItems_eq_map {α : Type} (number : Int64 → α) (text : String → α) (list : List α → α)
    (items : List Datum) :
    foldItems number text list items = items.map (fold number text list) := by
  induction items with
  | nil => rfl
  | cons d items ih => rw [foldItems, ih, List.map_cons]

/-- The datum as values that hold it are written. -/
def written : Datum → String :=
  fold (fun n => Decimal.ofInt n.toInt) (fun s => "'" ++ s ++ "'")
    fun items => "[" ++ String.intercalate ", " items ++ "]"

/-- The lexemes of the written datum. -/
def lexemes : Datum → List Lexeme :=
  fold (fun n => [.number (Decimal.ofInt n.toInt)]) (fun s => [.quoted .single s])
    fun items => .symbol .bracketLeft ::
      (List.intercalate [.symbol .comma] items ++ [.symbol .bracketRight])

/-- The expression that stands for the datum. -/
def literal : Datum → Expr :=
  fold .int .text .array

theorem written_list (items : List Datum) : (list items).written =
    Symbol.bracketLeft.text ++
      (String.intercalate ", " (items.map written) ++ Symbol.bracketRight.text) := by
  rw [written, fold, foldItems_eq_map, String.append_assoc]
  rfl

theorem lexemes_list (items : List Datum) : (list items).lexemes =
    .symbol .bracketLeft ::
      (List.intercalate [.symbol .comma] (items.map lexemes) ++ [.symbol .bracketRight]) := by
  rw [lexemes, fold, foldItems_eq_map]

theorem literal_list (items : List Datum) : (list items).literal = .array (items.map literal) := by
  rw [literal, fold, foldItems_eq_map]

variable {d : Datum} {depth : Nat}

/-! ### Reading -/

theorem spells_written (h : d.Writable depth) : Spells d.written d.lexemes := by
  induction h with
  | number hn => exact Expr.spells_int hn
  | @text _ s hs =>
    have hquoted := Spells.quoted .single hs
    rw [← String.append_assoc] at hquoted
    exact hquoted
  | list _ ih =>
    rw [written_list, lexemes_list]
    exact .symbol rfl ((Spells.commaSeparated ih).close rfl)

open Grammar

/-- Each array takes one level of nesting, and what is not an array one more. -/
theorem expression_lexemes (h : d.Writable depth) :
    Expression (depth + 1) d.lexemes d.literal := by
  induction h with
  | @number depth n hn =>
    have hnumber : Primary (Expression depth) [.number (Decimal.ofInt n.toInt)] _ := .int _
    rw [Expr.ofNat_value_ofInt hn] at hnumber
    exact .operand (.operand (Expr.factor_of_primary hnumber))
  | @text depth s _ =>
    have htext : Primary (Expression depth) [.quoted .single s] (.text s) := .text .single s
    exact .operand (.operand (Expr.factor_of_primary htext))
  | @list depth items _ ih =>
    have hlist : Primary (Expression (depth + 1)) (list items).lexemes (list items).literal := by
      rw [lexemes_list, literal_list]
      cases items with
      | nil => exact .arrayEmpty
      | cons first items => exact .array (.intercalate ih)
    exact .operand (.operand (Expr.factor_of_primary hlist))

theorem ofSource_written (h : d.Writable depth) (hdepth : depth + 1 = nestingLimit) :
    (Expr.ofSource d.written).result = .ok d.literal := by
  have hphrase : Expression nestingLimit d.lexemes d.literal := hdepth ▸ expression_lexemes h
  exact Expr.ofSource_of_spells (spells_written h) hphrase

end Datum

/-! ### Writing -/

/-- What is written of a value without marks is what is written of the datum. -/
theorem Outline.text_of_holds {heap : Heap} {above : List Handle} {o : Outline} {d : Datum}
    {depth : Nat} (h : o.Faithful heap above) (hunmarked : o.Unmarked)
    (hwritable : heap.Writable depth o.value) (hd : heap.Holds o.value d) :
    o.text true = d.written := by
  induction h generalizing depth d with
  | plain hkind =>
    cases hwritable with
    | int _ =>
      obtain rfl := Heap.holds_int.1 hd
      rfl
    | text _ =>
      obtain rfl := Heap.holds_text.1 hd
      rfl
    | array _ _ => exact absurd rfl hkind
  | marked _ => nomatch hunmarked
  | @full above a items _ helements _ ih =>
    cases hunmarked with
    | full hitems =>
      cases hwritable with
      | array _ hwritten =>
        obtain ⟨ds, rfl, hds⟩ := Heap.holds_array.1 hd
        rw [← helements] at hwritten hds
        have htexts : items.map (text true) = ds.map Datum.written := by
          rw [← List.forall₂_eq_eq_eq, List.forall₂_map_left_iff, List.forall₂_map_right_iff]
          refine forall₂_imp_of_mem (List.forall₂_map_left_iff.1 hds) fun o ho e _ hholds => ?_
          exact ih o ho (hitems o ho) (hwritten _ (List.mem_map_of_mem ho)) hholds
        rw [text, itemTexts_eq_map, htexts, Datum.written_list, String.append_assoc]
        rfl

theorem Heap.inspect_of_shows {heap : Heap} {depth : Nat} {v : Value} {d : Datum}
    (h : heap.Shows depth v d) : heap.inspect v = d.written := by
  have hfaithful : (heap.outline (heap.cells.size + 1) [] v).Faithful heap [] :=
    faithful_outline heap.isPath_nil (by simp) v
  have hacyclic : heap.Acyclic v := (plain_iff_exists_holds.2 ⟨d, h.holds⟩).acyclic
  rw [inspect, ← text_outline]
  have hvalue := value_outline heap (heap.cells.size + 1) [] v
  rw [← hvalue] at hacyclic h
  have hunmarked := hfaithful.unmarked (fun a ha => absurd ha List.not_mem_nil) hacyclic
  exact Outline.text_of_holds hfaithful hunmarked h.writable h.holds

/-! ## Evaluation -/

namespace Eval

variable {settings : Settings} {depth : Nat}

/-- A new array of values that show the items shows their list. -/
theorem shows_allocValue {heap : Heap} {vs : List Value} {items : List Datum}
    (h : List.Forall₂ (heap.Shows depth) vs items) :
    (heap.allocValue vs.toArray).2.Shows (depth + 1) (heap.allocValue vs.toArray).1
      (.list items) := by
  have hextends : heap.Extends (heap.allocValue vs.toArray).2 := .alloc heap vs.toArray
  have helements : ((heap.allocValue vs.toArray).2.elements ⟨heap.cells.size⟩).toList = vs :=
    congrArg Array.toList (Heap.elements_alloc_self heap vs.toArray)
  have hshows : List.Forall₂ ((heap.allocValue vs.toArray).2.Shows depth) vs items :=
    h.imp fun _ _ hv => hv.extend hextends
  refine ⟨.array ?_ ?_, Heap.holds_array.2 ⟨items, rfl, ?_⟩⟩
  · simp [Heap.allocValue, Heap.alloc]
  · rw [helements]
    intro w hw
    obtain ⟨e, _, he⟩ := exists_of_mem_of_forall₂ hshows hw
    exact he.writable
  · rw [helements]
    exact hshows.imp fun _ _ hv => hv.holds

/-- Literals in a row, if each of them evaluates to what it stands for. -/
theorem ends_literals {items : List Datum}
    (h : ∀ d ∈ items, ∀ s, ∃ w t, Ends (evaluate settings · d.literal) s (.ok w) t ∧
      s.Allocates t ∧ t.heap.Shows depth w d) (s : Session) :
    ∃ ws t, Ends (fun n => evaluateAll (evaluate settings n) (items.map Datum.literal)) s (.ok ws)
      t ∧ s.Allocates t ∧ List.Forall₂ (t.heap.Shows depth) ws items := by
  induction items generalizing s with
  | nil => exact ⟨[], s, ends_evaluateAll_nil, .refl s, .nil⟩
  | cons d items ih =>
    obtain ⟨w, u, hfirst, hsu, hw⟩ := h d (List.mem_cons_self ..) s
    obtain ⟨ws, t, hrest, hut, hws⟩ := ih (fun e he => h e (List.mem_cons_of_mem _ he)) u
    exact ⟨w :: ws, t, ends_evaluateAll_cons hfirst hrest, hsu.trans hut,
      .cons (hw.extend hut.heap) hws⟩

/-- A literal evaluates to a value that shows what the literal stands for, and makes arrays only. -/
theorem ends_literal {d : Datum} (h : d.Writable depth) (settings : Settings) (s : Session) :
    ∃ w t, Ends (evaluate settings · d.literal) s (.ok w) t ∧ s.Allocates t ∧
      t.heap.Shows depth w d := by
  induction h generalizing s with
  | @number _ n hn => exact ⟨.int n, s, ends_int n, .refl s, .int hn, by simp⟩
  | @text _ text htext => exact ⟨.text text, s, ends_text text, .refl s, .text htext, by simp⟩
  | @list _ items _ ih =>
    obtain ⟨ws, t, hend, hst, hws⟩ := ends_literals ih s
    rw [Datum.literal_list]
    exact ⟨_, _, ends_array hend, hst.extend (.alloc t.heap ws.toArray), shows_allocValue hws⟩

end Eval

open Eval

/-- **Printed data evaluates back to itself.** The written form of a value that is made of numbers
    that are not negative, texts without a single quote and arrays nested at most 127 deep reads as
    an expression. In every session, that expression evaluates to a value that holds what the first
    one holds, and that is equal to it where its arrays are those of the session. All else that the
    session has afterwards are new arrays. -/
theorem printed_data_evaluates_back {heap : Heap} {v : Value} (h : heap.Writable 127 v) :
    ∃ e, (Expr.ofSource (heap.inspect v)).result = .ok e ∧
      ∀ (settings : Settings) (s : Session), ∃ w t,
        Ends (evaluate settings · e) s (.ok w) t ∧ s.Allocates t ∧
          (∀ d, heap.Holds v d → t.heap.Holds w d) ∧
          (heap.AgreesOn s.heap v →
            t.heap.equal? w v = some true ∧ t.heap.equal? v w = some true) := by
  obtain ⟨d, hd⟩ := h.exists_holds
  have hdatum := h.datum hd
  refine ⟨d.literal, ?_, fun settings s => ?_⟩
  · rw [Heap.inspect_of_shows ⟨h, hd⟩]
    exact Datum.ofSource_written hdatum rfl
  · obtain ⟨w, t, hend, hst, hw⟩ := ends_literal hdatum settings s
    refine ⟨w, t, hend, hst, fun e he => hd.unique he ▸ hw.holds, fun hagrees => ?_⟩
    have hbefore : s.heap.Shows 127 v d := ⟨h.agreesOn hagrees, hd.agreesOn hagrees⟩
    have hafter := (hbefore.extend hst.heap).holds
    have hsame : some (decide (d = d)) = some true := by simp
    exact ⟨(Heap.equal?_of_holds hw.holds hafter).trans hsame,
      (Heap.equal?_of_holds hafter hw.holds).trans hsame⟩

/-- An array with an element that is there twice is written with two, and evaluates to an array that
    is equal to it. -/
theorem printed_data_evaluates_back_shared :
    nestedArrays.Writable 127 (.array ⟨1⟩) ∧
      ∃ e, (Expr.ofSource "[[1, 'a'], [1, 'a']]").result = .ok e ∧
        ∃ w t, Ends (evaluate {} · e) { heap := nestedArrays } (.ok w) t ∧
          nestedArrays.Extends t.heap ∧ t.heap.equal? w (.array ⟨1⟩) = some true := by
  have hinner : nestedArrays.Writable 126 (.array ⟨0⟩) := by
    refine .array (by decide) fun v hv => ?_
    have hcases : v = .int 1 ∨ v = .text "a" := by
      simpa [nestedArrays, Heap.elements] using hv
    rcases hcases with rfl | rfl
    · exact .int (by decide)
    · exact .text (by decide)
  have hwritable : nestedArrays.Writable 127 (.array ⟨1⟩) := by
    refine .array (by decide) fun v hv => ?_
    have hshared : v = .array ⟨0⟩ := by simpa [nestedArrays, Heap.elements] using hv
    exact hshared ▸ hinner
  have hwritten : nestedArrays.inspect (.array ⟨1⟩) = "[[1, 'a'], [1, 'a']]" := by
    decide +kernel
  obtain ⟨e, hread, heval⟩ := printed_data_evaluates_back hwritable
  obtain ⟨w, t, hend, hst, -, hequal⟩ := heval {} { heap := nestedArrays }
  have hagrees := hwritable.agreesOn_of_extends (.refl nestedArrays)
  exact ⟨hwritable, e, hwritten ▸ hread, w, t, hend, hst.heap, (hequal hagrees).1⟩

end Scriptlet
