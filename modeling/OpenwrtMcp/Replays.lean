-- Runs by a script: each line says who goes on, and what the calls answer is computed. A script
-- that can be played to its end is a run of the system.
import OpenwrtMcp.Protocols

namespace tasks

section
variable {σ Call : Type} {Answer : Call → Type} {Time Event Request α : Type}

/-- One of the answers that each call can have, and what happens when an event does. -/
structure Player (S : System σ Call Answer Time Event Request α) where
  respond : Nat → (c : Call) → σ → Option (Answer c × σ)
  occur : σ → Event → Option σ
  respond_exec : ∀ {i c s a s'}, respond i c s = some (a, s') → S.exec i c s a s'
  occur_outside : ∀ {s e s'}, occur s e = some s' → S.outside s e s'

inductive Cue (Event Request : Type)
  | request (r : Request)
  | turn (i : Nat)
  | cancel (i : Nat)
  | event (e : Event)

variable {S : System σ Call Answer Time Event Request α}

/-- What happened so far, and the pool that it led to. -/
abbrev Scene (_ : System σ Call Answer Time Event Request α) :=
  List (Moment Call Answer Event Request) × Pool σ Call Answer Time α

namespace Player

variable (P : Player S)

/-- A program has its answer. -/
def answer (scene : Scene S) (i : Nat) (c : Call)
    (next : Answer c → Running Call Answer Time α) : Option (Scene S) :=
  (P.respond i c scene.2.shared).map fun x =>
    (scene.1 ++ [.answered i c x.1], ⟨x.2, scene.2.running.set i (next x.1)⟩)

def turn (scene : Scene S) (i : Nat) : Option (Scene S) :=
  match scene.2.running[i]? with
  | some (.active (.call c next)) => P.answer scene i c fun a => .active (next a)
  | some (.active (.wait c next _)) => P.answer scene i c fun a => .active (next a)
  | some (.active (.timed c _ next _ _)) => P.answer scene i c fun a => .active (next a)
  | some (.dropped (c :: cs)) => P.answer scene i c fun _ => .dropped cs
  | _ => none

def cancel (scene : Scene S) (i : Nat) : Option (Scene S) :=
  match scene.2.running[i]? with
  | some (.active (.wait _ _ drop)) =>
    some (scene.1 ++ [.cancelled i], scene.2.put i (.dropped drop))
  | some (.active (.timed _ _ _ _ drop)) =>
    some (scene.1 ++ [.cancelled i], scene.2.put i (.dropped drop))
  | _ => none

def play (scene : Scene S) : Cue Event Request → Option (Scene S)
  | .request r =>
    some (scene.1 ++ [.started scene.2.running.length r],
      { scene.2 with running := scene.2.running ++ [.active (S.program r)] })
  | .turn i => P.turn scene i
  | .cancel i => cancel scene i
  | .event e =>
    (P.occur scene.2.shared e).map fun s =>
      (scene.1 ++ [.happened e], { scene.2 with shared := s })

def plays (scene : Scene S) : List (Cue Event Request) → Option (Scene S)
  | [] => some scene
  | cue :: script => (P.play scene cue).bind fun scene => plays scene script

variable {P} {scene scene' : Scene S} {i : Nat}

theorem answer_reached (h : Reached S scene.1 scene.2) {c : Call}
    {next : Answer c → Running Call Answer Time α}
    (hstep : ∀ a s, S.exec i c scene.2.shared a s →
      Step S scene.2 (.answered i c a) ⟨s, scene.2.running.set i (next a)⟩)
    (hanswer : P.answer scene i c next = some scene') : Reached S scene'.1 scene'.2 := by
  unfold answer at hanswer
  obtain ⟨⟨a, s⟩, hrespond, rfl⟩ := Option.map_eq_some_iff.1 hanswer
  exact h.step (hstep a s (P.respond_exec hrespond))

theorem turn_reached (h : Reached S scene.1 scene.2) (hturn : P.turn scene i = some scene') :
    Reached S scene'.1 scene'.2 := by
  unfold turn at hturn
  split at hturn
  · rename_i hr
    exact answer_reached h (fun _ _ hexec => .call hr hexec) hturn
  · rename_i hr
    exact answer_reached h (fun _ _ hexec => .wait hr hexec) hturn
  · rename_i hr
    exact answer_reached h (fun _ _ hexec => .timed hr hexec) hturn
  · rename_i hr
    exact answer_reached h (fun _ _ hexec => .unwind hr hexec) hturn
  · cases hturn

theorem cancel_reached (h : Reached S scene.1 scene.2) (hcancel : cancel scene i = some scene') :
    Reached S scene'.1 scene'.2 := by
  unfold cancel at hcancel
  split at hcancel
  · rename_i hr
    cases hcancel
    exact h.step (.cancel hr)
  · rename_i hr
    cases hcancel
    exact h.step (.cancel_timed hr)
  · cases hcancel

theorem play_reached (h : Reached S scene.1 scene.2) {cue : Cue Event Request}
    (hplay : P.play scene cue = some scene') : Reached S scene'.1 scene'.2 := by
  cases cue with
  | request r =>
    cases hplay
    exact h.step .start
  | turn i => exact turn_reached h hplay
  | cancel i => exact cancel_reached h hplay
  | event e =>
    obtain ⟨s, hoccur, rfl⟩ := Option.map_eq_some_iff.1 hplay
    exact h.step (.outside (P.occur_outside hoccur))

/-- A script that is played to its end leads to a pool that is reached. -/
theorem plays_reached {script : List (Cue Event Request)} (h : Reached S scene.1 scene.2)
    (hplays : P.plays scene script = some scene') : Reached S scene'.1 scene'.2 := by
  induction script generalizing scene with
  | nil =>
    cases hplays
    exact h
  | cons cue script ih =>
    obtain ⟨next, hplay, hrest⟩ := Option.bind_eq_some_iff.1 hplays
    exact ih (play_reached h hplay) hrest

end Player

end

end tasks
