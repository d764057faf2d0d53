import Scriptlet.Proofs.Guarantees
import Scriptlet.Proofs.Inheritance

set_option autoImplicit false

/-! # A closed world

The statements that an evaluation can come to are those of the program, those of the functions that
are defined when it starts, and those of functions defined in either: there is no other way to a
statement, since the text given to `eval` is an expression. So what holds of all statements in
sight holds of every statement that is ever executed (`Starts.inherits`), and what no such statement
changes of the globals and of the functions stays as it is (`Persistent.run`).

Both come from one invariant of sessions: all functions have only permitted statements in them, and
a property of the globals and the functions holds that no permitted statement breaks. A definition
is a permitted statement only if its body has permitted statements in it alone, so definitions keep
the invariant. -/

namespace Scriptlet

open Eval

/-! ## All statements in sight -/

mutual

/-- A statement and all statements inside it are as given; the bodies of functions that it defines
    count as well. -/
def Stmt.everywhere (p : Stmt → Bool) : Stmt → Bool
  | .branch condition thenBlock elseBlock =>
    p (.branch condition thenBlock elseBlock) && Block.everywhere p thenBlock &&
      Block.everywhere p elseBlock
  | .whileLoop condition body => p (.whileLoop condition body) && Block.everywhere p body
  | .forLoop init condition step body =>
    p (.forLoop init condition step body) && Stmt.everywhere p init && Stmt.everywhere p step &&
      Block.everywhere p body
  | .define name parameters body => p (.define name parameters body) && Block.everywhere p body
  | stmt => p stmt

/-- All statements in a block are as given. -/
def Block.everywhere (p : Stmt → Bool) : Block → Bool
  | [] => true
  | stmt :: rest => Stmt.everywhere p stmt && Block.everywhere p rest

end

variable {p : Stmt → Bool}

theorem Stmt.of_everywhere {stmt : Stmt} (h : stmt.everywhere p = true) : p stmt = true := by
  cases stmt <;> simp_all [Stmt.everywhere]

theorem Block.everywhere_iff {block : Block} :
    Block.everywhere p block = true ↔ ∀ stmt ∈ block, stmt.everywhere p = true := by
  induction block with
  | nil => simp [Block.everywhere]
  | cons stmt rest ih => simp [Block.everywhere, ih]

mutual

theorem Stmt.everywhere_true (stmt : Stmt) : stmt.everywhere (fun _ => true) = true := by
  cases stmt with
  | branch condition thenBlock elseBlock =>
    simp [Stmt.everywhere, Block.everywhere_true thenBlock, Block.everywhere_true elseBlock]
  | whileLoop condition body => simp [Stmt.everywhere, Block.everywhere_true body]
  | forLoop init condition step body =>
    simp [Stmt.everywhere, Stmt.everywhere_true init, Stmt.everywhere_true step,
      Block.everywhere_true body]
  | define name parameters body => simp [Stmt.everywhere, Block.everywhere_true body]
  | _ => rfl

theorem Block.everywhere_true (block : Block) : Block.everywhere (fun _ => true) block = true := by
  cases block with
  | nil => rfl
  | cons stmt rest =>
    simp [Block.everywhere, Stmt.everywhere_true stmt, Block.everywhere_true rest]

end

/-- Only such statements stand in the bodies of the functions that are defined. -/
def Session.Everywhere (p : Stmt → Bool) (s : Session) : Prop :=
  ∀ name f, s.functions.get? name = some f → Block.everywhere p f.body = true

/-- All that is in the table is more than what can be looked up, and can be checked. -/
theorem Session.everywhere_of_entries {s : Session}
    (h : ∀ entry ∈ s.functions.entries, Block.everywhere p entry.2.body = true) :
    s.Everywhere p := by
  intro name f hf
  obtain ⟨entry, hfound, rfl⟩ := Option.map_eq_some_iff.1 hf
  exact h entry (List.mem_of_find?_eq_some hfound)

/-- A definition that is permitted defines a function that is. -/
theorem Session.Everywhere.define {s : Session} (h : s.Everywhere p) {name : String}
    {parameters : List String} {body : Block}
    (hstmt : (Stmt.define name parameters body).everywhere p = true) :
    Session.Everywhere p { s with functions := s.functions.insert name ⟨parameters, body⟩ } := by
  intro other f hf
  by_cases hname : name = other
  · subst hname
    rw [Bindings.get?_insert_self, Option.some.injEq] at hf
    subst hf
    simp only [Stmt.everywhere, Bool.and_eq_true] at hstmt
    exact hstmt.2
  · rw [Bindings.get?_insert_of_ne _ _ hname] at hf
    exact h other f hf

/-- No such statement stands in the program or in the body of a function that is defined, nor in a
    function definition nested in either. -/
structure Absent (q : Stmt → Bool) (program : Block) (s : Session) : Prop where
  program : Block.everywhere (!q ·) program = true
  functions : s.Everywhere (!q ·)

/-- Only such statements stand in what the task executes. -/
def Task.Everywhere (p : Stmt → Bool) : Task → Prop
  | statement stmt _ => stmt.everywhere p = true
  | _ => True

/-- One step down: what holds of all statements in sight holds in the statements inside one. -/
theorem Stmt.everywhere_inside {stmt inner : Stmt} (h : stmt.everywhere p = true)
    (hmem : inner ∈ stmt.inBlocks ∨ inner ∈ stmt.clauses) : inner.everywhere p = true := by
  have hblock {block : Block} (hblock : Block.everywhere p block = true)
      (hmem : inner ∈ block) : inner.everywhere p = true :=
    Block.everywhere_iff.1 hblock inner hmem
  cases stmt with
  | branch condition thenBlock elseBlock =>
    simp only [Stmt.everywhere, Bool.and_eq_true] at h
    simp only [Stmt.inBlocks, Stmt.clauses, List.mem_append, List.not_mem_nil, or_false] at hmem
    exact hmem.elim (hblock h.1.2) (hblock h.2)
  | whileLoop condition body | define name parameters body =>
    simp only [Stmt.everywhere, Bool.and_eq_true] at h
    simp only [Stmt.inBlocks, Stmt.clauses, List.not_mem_nil, or_false] at hmem
    exact hblock h.2 hmem
  | forLoop init condition step body =>
    simp only [Stmt.everywhere, Bool.and_eq_true] at h
    simp only [Stmt.inBlocks, Stmt.clauses, List.mem_cons, List.not_mem_nil, or_false] at hmem
    obtain hbody | rfl | rfl := hmem
    · exact hblock h.2 hbody
    · exact h.1.1.2
    · exact h.1.2
  | _ => simp [Stmt.inBlocks, Stmt.clauses] at hmem

/-- What stands in a task is as the task is, and a text given to `eval` is an expression. -/
theorem Task.inherited_everywhere (p : Stmt → Bool) : Inherited (Task.Everywhere p) where
  operand _ _ _ _ := trivial
  expression _ _ _ _ _ := trivial
  statement _ _ h _ hmem _ := Stmt.everywhere_inside h hmem
  text _ _ _ _ _ := trivial
  comparison _ := trivial

theorem Session.Everywhere.offers {s : Session} (h : s.Everywhere p) :
    s.Offers (Task.Everywhere p) := by
  intro name f hf stmt hmem _
  exact Block.everywhere_iff.1 (h name f hf) stmt hmem

/-! ## The invariant -/

/-- The global name that the statement binds. -/
def Stmt.globalName? : Stmt → Option String
  | declareGlobal name _ | promote name => some name
  | _ => none

/-- No statement that is permitted breaks a property of the globals and the functions. -/
structure Unbroken (p : Stmt → Bool) (I : Bindings Value → Bindings Function → Prop) : Prop where
  global : ∀ stmt name, p stmt = true → stmt.globalName? = some name →
    ∀ globals functions v, I globals functions → I (globals.insert name v) functions
  function : ∀ name parameters body, p (.define name parameters body) = true →
    ∀ globals functions, I globals functions → I globals (functions.insert name ⟨parameters, body⟩)

/-- All functions have permitted statements in them alone, and the property holds. -/
structure Closed (p : Stmt → Bool) (I : Bindings Value → Bindings Function → Prop) (s : Session) :
    Prop where
  functions : s.Everywhere p
  tables : I s.globals s.functions

section Closed

variable {I : Bindings Value → Bindings Function → Prop} {settings : Settings}

theorem Closed.congr {s t : Session} (h : Closed p I s) (hglobals : t.globals = s.globals)
    (hfunctions : t.functions = s.functions) : Closed p I t := by
  refine ⟨?_, ?_⟩
  · unfold Session.Everywhere
    rw [hfunctions]
    exact h.functions
  · rw [hglobals, hfunctions]
    exact h.tables

theorem Closed.define {s : Session} (hI : Unbroken p I) (h : Closed p I s) {name : String}
    {parameters : List String} {body : Block}
    (hstmt : (Stmt.define name parameters body).everywhere p = true) :
    Closed p I { s with functions := s.functions.insert name ⟨parameters, body⟩ } :=
  ⟨h.functions.define hstmt, hI.function _ _ _ (Stmt.of_everywhere hstmt) _ _ h.tables⟩

/-- Preserving the invariant is a guarantee. -/
def closing (p : Stmt → Bool) (I : Bindings Value → Bindings Function → Prop) : Guarantee where
  Holds x s := Closed p I s → ∀ k r t, x k s = some (r, t) → Closed p I t
  harmless := by
    rintro α x s ⟨r, t, hx, -, hglobals, hfunctions⟩ hs _ r' t' hx'
    have hend := hx.symm.trans hx'
    simp only [Option.some.injEq, Prod.mk.injEq] at hend
    obtain ⟨rfl, rfl⟩ := hend
    exact hs.congr hglobals hfunctions
  endless := by
    intro α β x y s hx _ _ _ k r t h
    exact absurd h (by simp [hx])
  bind := by
    intro α β x f s hx hf hs k r t h
    rcases bind_eq_some_iff.1 h with ⟨e, he, -⟩ | ⟨a, u, ha, hb⟩
    · exact hx hs k _ t he
    · exact hf k a u ha (hx hs k _ u ha) k r t hb
  rollback := by
    intro α x s hx hs k r t h
    obtain ⟨u, hu, rfl⟩ := rollback_eq_some_iff.1 h
    exact (hx hs k r u hu).congr rfl rfl
  deeper := by
    intro α x s limit hx hs k r t h
    rcases Nat.lt_or_ge s.depth limit with hbelow | hlimit
    · obtain ⟨u, hu, rfl⟩ := (deeper_eq_some_iff_of_lt hbelow).1 h
      exact (hx hbelow (hs.congr rfl rfl) k r u hu).congr rfl rfl
    · have hend := (deeper_of_le hlimit (x k)).symm.trans h
      simp only [Option.some.injEq, Prod.mk.injEq] at hend
      exact hend.2 ▸ hs

/-- What is started has permitted statements in it alone. -/
theorem Starts.everywhere {a b : Point} (h : Starts settings a b) (ha : a.task.Everywhere p)
    (hs : a.session.Everywhere p) : b.task.Everywhere p :=
  (Task.inherited_everywhere p).starts h ha hs.offers

/-- The own part of the invariant: a permitted statement keeps it. -/
theorem own_closing (hI : Unbroken p I) {stmt : Stmt} (hstmt : stmt.everywhere p = true)
    (s : Session) : (closing p I).Own stmt s := by
  have hglobal (name : String) (hname : stmt.globalName? = some name) (v : Value) (u : Session) :
      (closing p I).Holds (fun _ => setGlobal name v) u := by
    intro hu k r t h
    simp only [setGlobal, update, Option.some.injEq, Prod.mk.injEq] at h
    obtain ⟨-, rfl⟩ := h
    exact ⟨hu.functions, hI.global stmt name (Stmt.of_everywhere hstmt) hname _ _ v hu.tables⟩
  cases stmt with
  | exit =>
    exact (closing p I).bind ((closing p I).harmless (.writeLine _)) fun _ _ u _ hu _ r t h => by
      simp only [fail, Option.some.injEq, Prod.mk.injEq] at h
      exact h.2 ▸ hu
  | define name parameters body =>
    intro u hu k r t h
    simp only [update, Option.some.injEq, Prod.mk.injEq] at h
    obtain ⟨-, rfl⟩ := h
    exact hu.define hI hstmt
  | declareGlobal name value => exact hglobal name rfl
  | promote name => exact hglobal name rfl
  | _ => trivial

/-- Permitted tasks preserve the invariant. -/
theorem closed_task (hI : Unbroken p I) (settings : Settings) (n : Nat) (a : Point)
    (ha : a.task.Everywhere p) :
    (closing p I).Holds (fun _ => a.task.run settings n) a.session := by
  have hnever (u : Session) : (closing p I).Holds (fun _ => (never : Eval Yield)) u := by
    intro _ _ r t h
    exact absurd h (by simp [never])
  induction n generalizing a with
  | zero => exact (closing p I).holds_zero hnever a
  | succ n ih =>
    -- the functions in sight are needed to know what is started, and the invariant gives them
    intro hclosed
    refine (closing p I).holds_task hnever (fun stmt frame htask _ => ?_) (fun b hb => ?_) hclosed
    · refine own_closing hI ?_ _
      rw [htask] at ha
      exact ha
    · exact ih b (hb.everywhere ha hclosed.functions)

end Closed

/-! ## Properties that persist -/

/-- A property of sessions that persists while permitted statements are executed: it implies that
    all functions have only permitted statements in them, depends neither on what belongs to an
    activation nor on the notices, and is preserved. -/
structure Persistent (settings : Settings) (p : Stmt → Bool) (J : Session → Prop) : Prop where
  functions : ∀ ⦃s⦄, J s → s.Everywhere p
  congr : ∀ ⦃s⦄ locals depth notices, J s → J { s with locals, depth, notices }
  evaluate : ∀ n e, Preserves J (evaluate settings n e)
  execute : ∀ n stmt frame, stmt.everywhere p = true → Preserves J (execute settings n stmt frame)

/-- The invariant persists. -/
theorem persistent_closed {I : Bindings Value → Bindings Function → Prop} (hI : Unbroken p I)
    (settings : Settings) : Persistent settings p (Closed p I) := by
  refine ⟨fun _ hs => hs.functions, fun _ _ _ _ hs => hs.congr rfl rfl, fun n e s r t h hs => ?_,
    fun n stmt frame hstmt s r t h hs => ?_⟩
  · exact closed_task hI settings n ⟨.expression e, s⟩ trivial hs 0 r t h
  · exact closed_task hI settings n ⟨.statement stmt frame, s⟩ hstmt hs 0 r t h

/-- That all functions have only permitted statements in them persists by itself. -/
theorem persistent_everywhere (p : Stmt → Bool) (settings : Settings) :
    Persistent settings p (Session.Everywhere p) := by
  have hI : Unbroken p fun _ _ => True :=
    ⟨fun _ _ _ _ _ _ _ _ => trivial, fun _ _ _ _ _ _ _ => trivial⟩
  have hclosed := persistent_closed hI settings
  refine ⟨fun _ hs => hs, fun _ _ _ _ hs => hs, fun n e s r t h hs => ?_,
    fun n stmt frame hstmt s r t h hs => ?_⟩
  · exact (hclosed.evaluate n e h ⟨hs, trivial⟩).functions
  · exact (hclosed.execute n stmt frame hstmt h ⟨hs, trivial⟩).functions

namespace Persistent

variable {settings : Settings} {J : Session → Prop} (hJ : Persistent settings p J)

include hJ

/-- Tasks that have permitted statements in them alone sustain the property. -/
theorem sustained : Sustained settings (Task.Everywhere p) J where
  toInherited := Task.inherited_everywhere p
  offers _ hs := (hJ.functions hs).offers
  evaluate e _ n := hJ.evaluate n e
  execute stmt frame hstmt n := hJ.execute n stmt frame hstmt
  enters := by
    rintro task n name arguments s f t - - ⟨-, -, values, s₀, hvalues, -, rfl⟩ hs
    exact hJ.congr _ _ _ (Preserves.evaluateAll (fun e _ => hJ.evaluate n e) hvalues hs)
  reading _ _ _ _ hs := hJ.congr _ _ _ hs

theorem test (n : Nat) (condition : Expr) : Preserves J (test settings n condition) :=
  hJ.sustained.test trivial n

theorem runBlock (n : Nat) {block : Block} (hblock : Block.everywhere p block = true)
    (frame : Frame) : Preserves J (runBlock settings n block frame) :=
  hJ.sustained.runBlock (fun stmt hmem _ => Block.everywhere_iff.1 hblock stmt hmem) n frame

/-- A run of permitted statements preserves the property. -/
theorem run (n : Nat) {program : Block} (hprogram : Block.everywhere p program = true) :
    Preserves J (run settings n program) :=
  hJ.sustained.run (fun stmt hmem _ => Block.everywhere_iff.1 hprogram stmt hmem) n

end Persistent

/-- What a permitted task starts is permitted, and the property holds where it is started. -/
theorem Starts.inherits {settings : Settings} {J : Session → Prop}
    (hJ : Persistent settings p J) {a b : Point} (h : Starts settings a b)
    (ha : a.task.Everywhere p) (hs : J a.session) : b.task.Everywhere p ∧ J b.session :=
  hJ.sustained.starts h ha hs

/-- Whatever a run of permitted statements comes to is permitted, and the property holds there. -/
theorem ComesTo.inherits {settings : Settings} {J : Session → Prop}
    (hJ : Persistent settings p J) {program : Block} {s : Session} {a : Point}
    (h : ComesTo settings program s a) (hprogram : Block.everywhere p program = true)
    (hs : J s) : a.task.Everywhere p ∧ J a.session :=
  hJ.sustained.comesTo h (fun stmt hmem _ => Block.everywhere_iff.1 hprogram stmt hmem) hs

end Scriptlet
