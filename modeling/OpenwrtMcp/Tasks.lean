-- Programs that run next to each other on what they share. A program calls, waits, and may be
-- dropped where it waits; a pool of them takes one step at a time, in any order. What each program
-- keeps to is a protocol, and a pool in which all do so keeps the invariant of the protocol.
import Mathlib

namespace tasks

section
variable {Call : Type} {Answer : Call → Type} {Time : Type} {α β : Type}

/-- A program. A call is one step of it. Where it waits for the answer, it can be dropped: the
calls in `drop` are then made for what it still holds. A wait that is timed also ends when the time
has come, and the program goes on with `late`. -/
inductive Task (Call : Type) (Answer : Call → Type) (Time : Type) (α : Type)
  | done (a : α)
  | call (c : Call) (next : Answer c → Task Call Answer Time α)
  | wait (c : Call) (next : Answer c → Task Call Answer Time α) (drop : List Call)
  | timed (c : Call) (limit : Time) (next : Answer c → Task Call Answer Time α)
      (late : Task Call Answer Time α) (drop : List Call)

namespace Task

/-- A call, and its answer. -/
def ask (c : Call) : Task Call Answer Time (Answer c) := .call c .done

/-- A call that is waited for. -/
def await (c : Call) : Task Call Answer Time (Answer c) := .wait c .done []

def bind (t : Task Call Answer Time α) (f : α → Task Call Answer Time β) :
    Task Call Answer Time β :=
  match t with
  | .done a => f a
  | .call c next => .call c fun a => (next a).bind f
  | .wait c next drop => .wait c (fun a => (next a).bind f) drop
  | .timed c limit next late drop => .timed c limit (fun a => (next a).bind f) (late.bind f) drop

instance task_monad : Monad (Task Call Answer Time) where
  pure := .done
  bind := bind

/-- Calls whose answers do not matter, and then the program. -/
def run (cs : List Call) (t : Task Call Answer Time α) : Task Call Answer Time α :=
  match cs with
  | [] => t
  | c :: cs => .call c fun _ => run cs t

/-- When the program is dropped, these calls are made too, after its own. -/
def covered (release : List Call) : Task Call Answer Time α → Task Call Answer Time α
  | .done a => .done a
  | .call c next => .call c fun a => (next a).covered release
  | .wait c next drop => .wait c (fun a => (next a).covered release) (drop ++ release)
  | .timed c limit next late drop =>
    .timed c limit (fun a => (next a).covered release) (late.covered release) (drop ++ release)

/-- The program holds something up to its end: it is given back then, or when it is dropped. -/
def holding (release : List Call) (t : Task Call Answer Time α) : Task Call Answer Time α :=
  (t.covered release).bind fun a => run release (.done a)

/-- The program up to a time. When it comes first, the program is dropped. A wait that has a time of
its own keeps only that one: a program in which a time is set is not put under another. -/
def timeout (limit : Time) : Task Call Answer Time α → Task Call Answer Time (Option α)
  | .done a => .done (some a)
  | .call c next => .call c fun a => (next a).timeout limit
  | .wait c next drop =>
    .timed c limit (fun a => (next a).timeout limit) (run drop (.done none)) drop
  | .timed c own next late drop =>
    .timed c own (fun a => (next a).timeout limit) (late.timeout limit) drop

/-- Every call of the program, and every one that is made when it is dropped, is of this kind. -/
def Calls (P : Call → Prop) : Task Call Answer Time α → Prop
  | .done _ => True
  | .call c next => P c ∧ ∀ a, (next a).Calls P
  | .wait c next drop => P c ∧ (∀ a, (next a).Calls P) ∧ ∀ c ∈ drop, P c
  | .timed c _ next late drop =>
    P c ∧ (∀ a, (next a).Calls P) ∧ late.Calls P ∧ ∀ c ∈ drop, P c

end Task

/-! ## Pools -/

/-- What the calls do, what happens besides, when a time has come, and what programs there are. -/
structure System (σ Call : Type) (Answer : Call → Type) (Time Event Request α : Type) where
  initial : σ
  exec : Nat → (c : Call) → σ → Answer c → σ → Prop
  outside : σ → Event → σ → Prop
  expired : σ → Time → Prop
  program : Request → Task Call Answer Time α

/-- A program that runs, or the calls that are left of one that was dropped. -/
inductive Running (Call : Type) (Answer : Call → Type) (Time : Type) (α : Type)
  | active (t : Task Call Answer Time α)
  | dropped (cs : List Call)

/-- The call that is made next. -/
def Running.next {Call : Type} {Answer : Call → Type} {Time α : Type} :
    Running Call Answer Time α → Option Call
  | .active (.done _) | .dropped [] => none
  | .active (.call c _) | .active (.wait c _ _) | .active (.timed c _ _ _ _) | .dropped (c :: _) =>
    some c

structure Pool (σ Call : Type) (Answer : Call → Type) (Time α : Type) where
  shared : σ
  running : List (Running Call Answer Time α)

/-- What a step was. -/
inductive Moment (Call : Type) (Answer : Call → Type) (Event Request : Type)
  | started (i : Nat) (r : Request)
  | answered (i : Nat) (c : Call) (a : Answer c)
  | late (i : Nat)
  | cancelled (i : Nat)
  | happened (e : Event)

variable {σ Event Request : Type} (S : System σ Call Answer Time Event Request α)

namespace Pool

def put (p : Pool σ Call Answer Time α) (i : Nat) (r : Running Call Answer Time α) :
    Pool σ Call Answer Time α := { p with running := p.running.set i r }

end Pool

open Running in
/-- One step of a pool. -/
inductive Step : Pool σ Call Answer Time α → Moment Call Answer Event Request →
    Pool σ Call Answer Time α → Prop
  | start {p r} : Step p (.started p.running.length r)
      { p with running := p.running ++ [active (S.program r)] }
  | call {p i c next a s} : p.running[i]? = some (active (.call c next)) → S.exec i c p.shared a s →
      Step p (.answered i c a) { shared := s, running := p.running.set i (active (next a)) }
  | wait {p i c next drop a s} : p.running[i]? = some (active (.wait c next drop)) →
      S.exec i c p.shared a s →
      Step p (.answered i c a) { shared := s, running := p.running.set i (active (next a)) }
  | timed {p i c limit next late drop a s} :
      p.running[i]? = some (active (.timed c limit next late drop)) → S.exec i c p.shared a s →
      Step p (.answered i c a) { shared := s, running := p.running.set i (active (next a)) }
  | late {p i c limit next late drop} :
      p.running[i]? = some (active (.timed c limit next late drop)) → S.expired p.shared limit →
      Step p (.late i) (p.put i (active late))
  | cancel {p i c next drop} : p.running[i]? = some (active (.wait c next drop)) →
      Step p (.cancelled i) (p.put i (dropped drop))
  | cancel_timed {p i c limit next late drop} :
      p.running[i]? = some (active (.timed c limit next late drop)) →
      Step p (.cancelled i) (p.put i (dropped drop))
  | unwind {p i c cs a s} : p.running[i]? = some (dropped (c :: cs)) → S.exec i c p.shared a s →
      Step p (.answered i c a) { shared := s, running := p.running.set i (dropped cs) }
  | outside {p e s} : S.outside p.shared e s → Step p (.happened e) { p with shared := s }

/-- The pools that are reached, with all that happened up to there. -/
inductive Reached : List (Moment Call Answer Event Request) → Pool σ Call Answer Time α → Prop
  | start : Reached [] ⟨S.initial, []⟩
  | step {history p m q} : Reached history p → Step S p m q → Reached (history ++ [m]) q

end

end tasks
