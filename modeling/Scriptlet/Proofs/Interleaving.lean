import Scriptlet.Proofs.Coverage
import Scriptlet.Proofs.Lexing

set_option autoImplicit false

/-! # Requests to one lexer

A lexer answers two kinds of readers from one cursor: those that scan piece by piece and those that
ask for the next token. However their requests are mixed, they read one stream, the tokens and
faults of the text and then the end again and again: since the last reset, what either of them took
is the beginning of that stream, nothing twice and nothing left out (`exchanges_read_one_stream`).
What is recorded are the faults passed over by those who ask for tokens, and no others.

A stream is a function of the index here (`Cursor.found`), and a cursor is known by the stream that
it has in front of it. `Cursor.Takes` says that a list is the beginning of that stream and that the
next cursor has the rest of it; it is put together by `Cursor.Takes.append`. `Lexer.HasRead` adds to
it what a lexer remembers, and every request keeps it. -/

namespace Scriptlet

/-! ## The stream in front of a cursor -/

namespace Cursor

/-- What scanning finds from the cursor on: tokens and faults up to the end of the text, and then
    the end. -/
def found (cursor : Cursor) (i : Nat) : Except Fault Item :=
  match cursor.stream[i]? with
  | some found => found.map .token
  | none => .ok (.done (cursor.position.after cursor.rest))

/-- The place behind the whole text stays where it is. -/
theorem after_scan (cursor : Cursor) :
    cursor.scan.2.position.after cursor.scan.2.rest = cursor.position.after cursor.rest := by
  have happend := layout_append false cursor.rest
  unfold scan
  split
  next skipped rest hlayout =>
  rw [hlayout] at happend
  rw [← happend, Position.after_append]
  dsimp only
  split
  · rfl
  · next c text =>
    have hpiece := piece_append c text
    split <;> next hp =>
      rw [hp] at hpiece
      rw [← Position.after_append]
      exact congrArg _ hpiece

/-- At the end of the text there is nothing but the end. -/
theorem eq_after_of_scan_done {cursor next : Cursor} {position : Position}
    (h : cursor.scan = (.ok (.done position), next)) :
    position = cursor.position.after cursor.rest ∧ next.stream = [] := by
  have happend := layout_append false cursor.rest
  unfold scan at h
  split at h
  next skipped rest hlayout =>
  rw [hlayout] at happend
  dsimp only at h
  split at h
  · simp only [Prod.mk.injEq, Except.ok.injEq, Item.done.injEq] at h
    obtain ⟨rfl, rfl⟩ := h
    rw [← happend, List.append_nil]
    exact ⟨rfl, stream_of_layout_eq_nil rfl⟩
  · split at h <;> exact absurd h (by simp)

theorem found_zero (cursor : Cursor) : cursor.found 0 = cursor.scan.1 := by
  unfold found
  cases hscan : cursor.scan with
  | mk result next =>
    match result with
    | .ok (.done position) =>
      rw [stream_of_scan_done hscan, (eq_after_of_scan_done hscan).1]
      rfl
    | .ok (.token t) =>
      rw [stream_of_scan_token hscan]
      rfl
    | .error f =>
      rw [stream_of_scan_error hscan]
      rfl

theorem found_succ (cursor : Cursor) (i : Nat) : cursor.found (i + 1) = cursor.scan.2.found i := by
  have hafter := cursor.after_scan
  unfold found
  rw [hafter]
  cases hscan : cursor.scan with
  | mk result next =>
    match result with
    | .ok (.done position) =>
      rw [stream_of_scan_done hscan, (eq_after_of_scan_done hscan).2]
      rfl
    | .ok (.token t) =>
      rw [stream_of_scan_token hscan, List.getElem?_cons_succ]
    | .error f =>
      rw [stream_of_scan_error hscan, List.getElem?_cons_succ]

/-- The list is the beginning of the stream in front of the cursor, and the next cursor has the rest
    of it. -/
structure Takes (cursor : Cursor) (taken : List (Except Fault Item)) (next : Cursor) : Prop where
  beginning : taken = (List.range taken.length).map cursor.found
  rest : ∀ i, next.found i = cursor.found (taken.length + i)

namespace Takes

variable {cursor next last : Cursor} {taken more : List (Except Fault Item)}

theorem nil (cursor : Cursor) : cursor.Takes [] cursor where
  beginning := rfl
  rest i := by simp

theorem append (h : cursor.Takes taken next) (hmore : next.Takes more last) :
    cursor.Takes (taken ++ more) last where
  beginning := by
    have hshift : (List.range more.length).map next.found =
        (List.range more.length).map fun i => cursor.found (taken.length + i) :=
      List.map_congr_left fun i _ => h.rest i
    rw [List.length_append, List.range_add, List.map_append, List.map_map, ← h.beginning]
    exact congrArg (taken ++ ·) (hmore.beginning.trans hshift)
  rest i := by rw [hmore.rest, h.rest, List.length_append, Nat.add_assoc]

theorem scan (cursor : Cursor) : cursor.Takes [cursor.scan.1] cursor.scan.2 where
  beginning := by simp [found_zero]
  rest i := by rw [← found_succ, List.length_singleton, Nat.add_comm]

/-- Passing over faults takes them and what comes behind them. -/
theorem passFaults (cursor : Cursor) :
    cursor.Takes (cursor.passFaults.1.map .error ++ [.ok cursor.passFaults.2.1])
      cursor.passFaults.2.2 := by
  fun_induction Cursor.passFaults cursor with
  | case1 cursor item next hscan =>
    have htake := scan cursor
    rwa [hscan] at htake
  | case2 cursor f next hscan faults item last heq ih =>
    have htake := scan cursor
    rw [hscan] at htake
    rw [heq] at ih
    exact htake.append ih

end Takes

end Cursor

/-! ## Requests with their answers -/

namespace Lexer

/-- Scanning again and again answers with the stream. -/
theorem scans_eq_map_found (lexer : Lexer) (n : Nat) :
    lexer.scans n = (List.range n).map fun i => .scan (lexer.cursor.found i) := by
  induction n generalizing lexer with
  | zero => rfl
  | succ n ih =>
    have hrest := ih { lexer with cursor := lexer.cursor.scan.2 }
    rw [scans_succ, hrest, List.range_succ_eq_map, List.map_cons, List.map_map,
      Cursor.found_zero]
    refine congrArg (_ :: ·) (List.map_congr_left fun i _ => ?_)
    exact congrArg Answer.scan (Cursor.found_succ _ i).symm

/-- A request, its answer, and the faults that were reported on the way. -/
structure Exchange where
  request : Request
  answer : Answer
  reported : List Fault

/-- A request to a lexer. -/
def exchange (lexer : Lexer) (request : Request) : Exchange :=
  let (answer, reported, _) := lexer.serve request
  ⟨request, answer, reported⟩

/-- Requests to a lexer, in order. -/
def exchanges (lexer : Lexer) : List Request → List Exchange
  | [] => []
  | request :: requests =>
    lexer.exchange request :: (lexer.serve request).2.2.exchanges requests

theorem map_request_exchanges (lexer : Lexer) (requests : List Request) :
    (lexer.exchanges requests).map (·.request) = requests := by
  induction requests generalizing lexer with
  | nil => rfl
  | cons request requests ih => exact congrArg (request :: ·) (ih _)

theorem serveAll_eq_exchanges (lexer : Lexer) (requests : List Request) :
    lexer.serveAll requests =
      ((lexer.exchanges requests).map (·.answer),
        (lexer.exchanges requests).flatMap (·.reported)) := by
  induction requests generalizing lexer with
  | nil => rfl
  | cons request requests ih =>
    simp only [serveAll, ih]
    rfl

namespace Exchange

/-- What the exchange takes from the stream: a scan one piece, and a request for the next token the
    faults that it passes over and what comes behind them. -/
def taken (x : Exchange) : List (Except Fault Item) :=
  match x.answer with
  | .scan found => [found]
  | .next (some item) => x.reported.map .error ++ [.ok item]
  | .next none | .reset | .faults _ => []

/-- The faults that a request for the next token passes over. -/
def passed (x : Exchange) : List Fault :=
  match x.request with
  | .next => x.reported
  | .scan | .reset | .faults => []

/-- A request for the next token yields the end. -/
def yieldsEnd (x : Exchange) : Bool :=
  match x.answer with
  | .next (some (.done _)) => true
  | _ => false

/-- The exchanges behind the last reset. -/
def sinceReset (history : List Exchange) : List Exchange :=
  (history.reverse.takeWhile (·.request ≠ .reset)).reverse

/-- What a request is answered behind those since the last reset. Once the end was yielded there is
    no next token; and what is recorded are the faults passed over. -/
def Answers (since : List Exchange) (x : Exchange) : Prop :=
  match x.request with
  | .next =>
    if since.any yieldsEnd then x.answer = .next none ∧ x.reported = []
    else ∃ item, x.answer = .next (some item)
  | .scan => ∃ found, x.answer = .scan found ∧ x.reported = []
  | .reset => x.answer = .reset ∧ x.reported = []
  | .faults => x.answer = .faults (since.flatMap passed) ∧ x.reported = []

theorem sinceReset_concat (history : List Exchange) (x : Exchange) :
    sinceReset (history ++ [x]) =
      if x.request = .reset then [] else sinceReset history ++ [x] := by
  by_cases hreset : x.request = .reset <;> simp [sinceReset, hreset]

end Exchange

/-! ## Reading -/

open Exchange

/-- The lexer has served these requests since it was reset: its cursor has the stream in front of it
    that they left, and it remembers the faults passed over and whether the end was yielded. -/
structure HasRead (source : List Char) (since : List Exchange) (lexer : Lexer) : Prop where
  source_eq : lexer.source = source
  takes : (Cursor.ofText source).Takes (since.flatMap taken) lexer.cursor
  faults : lexer.faults = since.flatMap passed
  finished : lexer.finished = since.any yieldsEnd

namespace HasRead

variable {source : List Char} {since : List Exchange} {lexer : Lexer}

theorem ofText (source : List Char) : HasRead source [] (ofText source) where
  source_eq := rfl
  takes := .nil _
  faults := rfl
  finished := rfl

/-- One request more that is not a reset. -/
theorem concat (h : HasRead source since lexer) {request : Request} {next : Lexer}
    (hsource : next.source = lexer.source)
    (htakes : lexer.cursor.Takes (lexer.exchange request).taken next.cursor)
    (hfaults : next.faults = lexer.faults ++ (lexer.exchange request).passed)
    (hfinished : next.finished = (lexer.finished || (lexer.exchange request).yieldsEnd)) :
    HasRead source (since ++ [lexer.exchange request]) next where
  source_eq := hsource.trans h.source_eq
  takes := by
    rw [List.flatMap_append, List.flatMap_singleton]
    exact h.takes.append htakes
  faults := by rw [hfaults, h.faults, List.flatMap_append, List.flatMap_singleton]
  finished := by simp [hfinished, h.finished]

/-- Once the end was yielded there is no next token. -/
theorem next_of_finished (h : HasRead source since lexer) (hfinished : lexer.finished = true) :
    HasRead source (since ++ [lexer.exchange .next]) (lexer.serve .next).2.2 ∧
      Answers since (lexer.exchange .next) := by
  have hserve : lexer.serve .next = (.next none, [], lexer) := by
    simp [Lexer.serve, Lexer.next, hfinished]
  have hexchange : lexer.exchange .next = ⟨.next, .next none, []⟩ := by simp [exchange, hserve]
  have hend : since.any yieldsEnd = true := h.finished.symm.trans hfinished
  constructor
  · rw [hserve]
    refine h.concat rfl ?_ ?_ ?_
    · rw [hexchange]
      exact .nil _
    · simp [hexchange, passed]
    · simp [hfinished]
  · rw [hexchange]
    simp only [Answers, hend, if_true, and_self]

/-- Before that the next token is what is behind the faults in front of the cursor. -/
theorem next_of_unfinished (h : HasRead source since lexer) (hfinished : lexer.finished = false) :
    HasRead source (since ++ [lexer.exchange .next]) (lexer.serve .next).2.2 ∧
      Answers since (lexer.exchange .next) := by
  have htakes := Cursor.Takes.passFaults lexer.cursor
  have hend : since.any yieldsEnd = false := h.finished.symm.trans hfinished
  rcases hpass : lexer.cursor.passFaults with ⟨faults, item, cursor⟩
  rw [hpass] at htakes
  have hexchange : lexer.exchange .next = ⟨.next, .next (some item), faults⟩ := by
    simp [exchange, Lexer.serve, Lexer.next, hfinished, hpass]
  constructor
  · refine h.concat ?_ ?_ ?_ ?_ <;>
      simp only [hexchange, Lexer.serve, Lexer.next, hfinished, hpass, passed, taken]
    · rfl
    · exact htakes
    · rfl
    · cases item <;> rfl
  · rw [hexchange]
    simp only [Answers, hend]
    exact ⟨item, rfl⟩

/-- What one request does: the lexer has served it, and it is answered as it should be. -/
theorem serve (h : HasRead source since lexer) (request : Request) :
    HasRead source (if request = .reset then [] else since ++ [lexer.exchange request])
        (lexer.serve request).2.2 ∧
      Answers since (lexer.exchange request) := by
  cases request with
  | next =>
    rw [if_neg (by simp)]
    cases hfinished : lexer.finished with
    | true => exact h.next_of_finished hfinished
    | false => exact h.next_of_unfinished hfinished
  | scan =>
    refine ⟨?_, _, rfl, rfl⟩
    rw [if_neg (by simp)]
    refine h.concat rfl (.scan _) ?_ ?_
    · simp [exchange, Lexer.serve, Lexer.scan, passed]
    · simp [exchange, Lexer.serve, Lexer.scan, yieldsEnd]
  | reset =>
    refine ⟨?_, rfl, rfl⟩
    rw [if_pos rfl, ← h.source_eq]
    exact .ofText _
  | faults =>
    refine ⟨?_, congrArg Answer.faults h.faults, rfl⟩
    rw [if_neg (by simp)]
    refine h.concat rfl (.nil _) ?_ ?_
    · simp [exchange, Lexer.serve, passed]
    · simp [exchange, Lexer.serve, yieldsEnd]

/-- What any number of requests does: each of them is served behind those in front of it. -/
theorem exchanges {history : List Exchange} (h : HasRead source (sinceReset history) lexer)
    {requests : List Request} {before after : List Exchange} {x : Exchange}
    (hsplit : lexer.exchanges requests = before ++ x :: after) :
    (∃ next, (Cursor.ofText source).Takes
      ((sinceReset (history ++ before) ++ [x]).flatMap taken) next) ∧
      Answers (sinceReset (history ++ before)) x := by
  induction requests generalizing history lexer before with
  | nil => exact absurd hsplit (by simp [Lexer.exchanges])
  | cons request requests ih =>
    obtain ⟨hread, hanswers⟩ := h.serve request
    cases before with
    | nil =>
      obtain ⟨rfl, -⟩ := List.cons.inj hsplit
      rw [List.append_nil]
      refine ⟨?_, hanswers⟩
      cases request with
      -- a reset takes nothing, so what was taken is as it was
      | reset => exact ⟨lexer.cursor, by simpa [exchange, Lexer.serve, taken] using h.takes⟩
      | next | scan | faults =>
        rw [if_neg (by simp)] at hread
        exact ⟨_, hread.takes⟩
    | cons first before =>
      obtain ⟨rfl, hrest⟩ := List.cons.inj hsplit
      have hsince : sinceReset (history ++ [lexer.exchange request]) =
          if request = .reset then [] else sinceReset history ++ [lexer.exchange request] :=
        sinceReset_concat _ _
      rw [← hsince] at hread
      have hlater := ih hread hrest
      rwa [List.append_assoc, List.singleton_append] at hlater

end HasRead

end Lexer

open Lexer Exchange in
/-- **Any interleaving of requests reads one stream.** The stream of a text is what a fresh lexer
    finds that scans again and again: its tokens and faults, and then the end forever. However
    requests are mixed, all that was taken since the last reset is the beginning of the stream.
    A scan takes one piece of it; a request for the next token takes the faults in front of the
    token together with it, and takes nothing and yields nothing once the end was yielded. The
    faults recorded are those that such requests took since the last reset, in order, and they are
    also what is reported. -/
theorem exchanges_read_one_stream (source : String) (requests : List Request) :
    let lexer := Lexer.ofText source.toList
    let history := lexer.exchanges requests
    (∀ n, lexer.scans n = (List.range n).map fun i => .scan (lexer.cursor.found i)) ∧
    history.map (·.request) = requests ∧
    lexer.serveAll requests = (history.map (·.answer), history.flatMap (·.reported)) ∧
    ∀ before x after, history = before ++ x :: after →
      (∃ n, (sinceReset before ++ [x]).flatMap taken = (List.range n).map lexer.cursor.found) ∧
        Answers (sinceReset before) x := by
  intro lexer history
  refine ⟨lexer.scans_eq_map_found, lexer.map_request_exchanges requests,
    lexer.serveAll_eq_exchanges requests, fun before x after hsplit => ?_⟩
  have hread : HasRead source.toList (sinceReset []) lexer := .ofText _
  obtain ⟨⟨next, htakes⟩, hanswers⟩ := hread.exchanges hsplit
  exact ⟨⟨_, htakes.beginning⟩, hanswers⟩

end Scriptlet
