-- What a program keeps to while others run: which calls it may make with what it holds, and what it
-- holds after each answer. A pool of programs that keep to a protocol keeps its invariant.
import OpenwrtMcp.Tasks

namespace tasks

/-- `L` is what a program holds or knows. `knows` are the answers that there can be. -/
structure Contract (L Call : Type) (Answer : Call → Type) where
  may : L → Call → Prop
  knows : L → (c : Call) → Answer c → Prop
  after : L → (c : Call) → Answer c → L

section
variable {L Call : Type} {Answer : Call → Type} {Time : Type} {α β : Type}
  (C : Contract L Call Answer)

/-- The calls may be made one after another, and `D` holds at their end. -/
def Unwinds (D : L → Prop) : List Call → L → Prop
  | [], l => D l
  | c :: cs, l => C.may l c ∧ ∀ a, C.knows l c a → Unwinds D cs (C.after l c a)

/-- The program makes only calls that it may make, up to its end, where `Q` holds, and when it is
dropped, `D` holds behind that. -/
def Safe (Q : L → α → Prop) (D : L → Prop) : Task Call Answer Time α → L → Prop
  | .done a, l => Q l a
  | .call c next, l => C.may l c ∧ ∀ a, C.knows l c a → Safe Q D (next a) (C.after l c a)
  | .wait c next drop, l =>
    C.may l c ∧ (∀ a, C.knows l c a → Safe Q D (next a) (C.after l c a)) ∧ Unwinds C D drop l
  | .timed c _ next late drop, l =>
    C.may l c ∧ (∀ a, C.knows l c a → Safe Q D (next a) (C.after l c a)) ∧ Safe Q D late l ∧
      Unwinds C D drop l

variable {C} {Q Q' : L → α → Prop} {R : L → β → Prop} {D D' : L → Prop} {l : L}
  {t : Task Call Answer Time α}

/-! ## The rules -/

theorem Unwinds.conseq {cs : List Call} (h : Unwinds C D cs l) (hD : ∀ l, D l → D' l) :
    Unwinds C D' cs l := by
  induction cs generalizing l with
  | nil => exact hD l h
  | cons c cs ih => exact ⟨h.1, fun a ha => ih (h.2 a ha)⟩

theorem Unwinds.append_iff {cs ds : List Call} :
    Unwinds C D (cs ++ ds) l ↔ Unwinds C (Unwinds C D ds) cs l := by
  induction cs generalizing l with
  | nil => exact Iff.rfl
  | cons c cs ih => exact and_congr_right fun _ => forall₂_congr fun _ _ => ih

namespace Safe

theorem conseq (h : Safe C Q D t l) (hQ : ∀ l a, Q l a → Q' l a) (hD : ∀ l, D l → D' l) :
    Safe C Q' D' t l := by
  induction t generalizing l with
  | done a => exact hQ l a h
  | call c next ih => exact ⟨h.1, fun a ha => ih a (h.2 a ha)⟩
  | wait c next drop ih => exact ⟨h.1, fun a ha => ih a (h.2.1 a ha), h.2.2.conseq hD⟩
  | timed c limit next late drop ih ihlate =>
    exact ⟨h.1, fun a ha => ih a (h.2.1 a ha), ihlate h.2.2.1, h.2.2.2.conseq hD⟩

theorem bind_iff {f : α → Task Call Answer Time β} :
    Safe C R D (t >>= f) l ↔ Safe C (fun l a => Safe C R D (f a) l) D t l := by
  show Safe C R D (t.bind f) l ↔ _
  induction t generalizing l with
  | done a => exact Iff.rfl
  | call c next ih => exact and_congr_right fun _ => forall₂_congr fun a _ => ih a
  | wait c next drop ih =>
    exact and_congr_right fun _ => and_congr_left fun _ => forall₂_congr fun a _ => ih a
  | timed c limit next late drop ih ihlate =>
    exact and_congr_right fun _ =>
      and_congr (forall₂_congr fun a _ => ih a) (and_congr_left fun _ => ihlate)

theorem run_iff {cs : List Call} :
    Safe C Q D (t.run cs) l ↔ Unwinds C (fun l => Safe C Q D t l) cs l := by
  induction cs generalizing l with
  | nil => exact Iff.rfl
  | cons c cs ih => exact and_congr_right fun _ => forall₂_congr fun _ _ => ih

theorem covered_iff {release : List Call} :
    Safe C Q D (t.covered release) l ↔ Safe C Q (Unwinds C D release) t l := by
  induction t generalizing l with
  | done a => exact Iff.rfl
  | call c next ih => exact and_congr_right fun _ => forall₂_congr fun a _ => ih a
  | wait c next drop ih =>
    exact and_congr_right fun _ => and_congr (forall₂_congr fun a _ => ih a) Unwinds.append_iff
  | timed c limit next late drop ih ihlate =>
    exact and_congr_right fun _ =>
      and_congr (forall₂_congr fun a _ => ih a) (and_congr ihlate Unwinds.append_iff)

/-- What is held is given back at the end, with the result still known. -/
theorem holding_iff {release : List Call} :
    Safe C Q D (t.holding release) l ↔ Safe C
      (fun l a => Unwinds C (fun l => Q l a) release l) (Unwinds C D release) t l := by
  unfold Task.holding
  show Safe C Q D (t.covered release >>= _) l ↔ _
  rw [bind_iff, covered_iff]
  simp only [run_iff]
  exact Iff.rfl

/-- A program that is out of time has been dropped. -/
theorem timeout {limit : Time} (h : Safe C Q D t l) :
    Safe C (fun l (o : Option α) => o.elim (D l) (Q l)) D (t.timeout limit) l := by
  induction t generalizing l with
  | done a => exact h
  | call c next ih => exact ⟨h.1, fun a ha => ih a (h.2 a ha)⟩
  | wait c next drop ih =>
    exact ⟨h.1, fun a ha => ih a (h.2.1 a ha), run_iff.2 (h.2.2.conseq fun _ h => h), h.2.2⟩
  | timed c own next late drop ih ihlate =>
    exact ⟨h.1, fun a ha => ih a (h.2.1 a ha), ihlate h.2.2.1, h.2.2.2⟩

/-- Calls that may be made, and keep something, wherever it holds. -/
theorem of_calls {P : Call → Prop} {I : L → Prop} (h : t.Calls P)
    (hstep : ∀ l c, I l → P c → C.may l c ∧ ∀ a, C.knows l c a → I (C.after l c a)) (hI : I l) :
    Safe C (fun l' _ => I l') I t l := by
  have hdrop : ∀ (cs : List Call) (l : L), (∀ c ∈ cs, P c) → I l → Unwinds C I cs l := by
    intro cs
    induction cs with
    | nil => exact fun l _ hI => hI
    | cons c cs ih =>
      intro l hcs hI
      rw [List.forall_mem_cons] at hcs
      obtain ⟨hmay, hafter⟩ := hstep l c hI hcs.1
      exact ⟨hmay, fun a ha => ih _ hcs.2 (hafter a ha)⟩
  induction t generalizing l with
  | done a => exact hI
  | call c next ih =>
    obtain ⟨hmay, hafter⟩ := hstep l c hI h.1
    exact ⟨hmay, fun a ha => ih a (h.2 a) (hafter a ha)⟩
  | wait c next drop ih =>
    obtain ⟨hmay, hafter⟩ := hstep l c hI h.1
    exact ⟨hmay, fun a ha => ih a (h.2.1 a) (hafter a ha), hdrop drop l h.2.2 hI⟩
  | timed c limit next late drop ih ihlate =>
    obtain ⟨hmay, hafter⟩ := hstep l c hI h.1
    exact ⟨hmay, fun a ha => ih a (h.2.1 a) (hafter a ha), ihlate h.2.2.1 hI,
      hdrop drop l h.2.2.2 hI⟩

end Safe

end

namespace Task

variable {Call : Type} {Answer : Call → Type} {Time : Type} {α β : Type} {P P' : Call → Prop}
  {t : Task Call Answer Time α}

theorem Calls.mono (h : t.Calls P) (hP : ∀ c, P c → P' c) : t.Calls P' := by
  induction t with
  | done a => trivial
  | call c next ih => exact ⟨hP c h.1, fun a => ih a (h.2 a)⟩
  | wait c next drop ih =>
    exact ⟨hP c h.1, fun a => ih a (h.2.1 a), fun c hc => hP c (h.2.2 c hc)⟩
  | timed c limit next late drop ih ihlate =>
    exact ⟨hP c h.1, fun a => ih a (h.2.1 a), ihlate h.2.2.1, fun c hc => hP c (h.2.2.2 c hc)⟩

theorem Calls.bind {f : α → Task Call Answer Time β} (h : t.Calls P) (hf : ∀ a, (f a).Calls P) :
    (t >>= f).Calls P := by
  show (t.bind f).Calls P
  induction t with
  | done a => exact hf a
  | call c next ih => exact ⟨h.1, fun a => ih a (h.2 a)⟩
  | wait c next drop ih => exact ⟨h.1, fun a => ih a (h.2.1 a), h.2.2⟩
  | timed c limit next late drop ih ihlate =>
    exact ⟨h.1, fun a => ih a (h.2.1 a), ihlate h.2.2.1, h.2.2.2⟩

theorem Calls.run {cs : List Call} (hcs : ∀ c ∈ cs, P c) (h : t.Calls P) : (t.run cs).Calls P := by
  induction cs with
  | nil => exact h
  | cons c cs ih =>
    rw [List.forall_mem_cons] at hcs
    exact ⟨hcs.1, fun _ => ih hcs.2⟩

theorem Calls.covered {release : List Call} (hrelease : ∀ c ∈ release, P c) (h : t.Calls P) :
    (t.covered release).Calls P := by
  induction t with
  | done a => trivial
  | call c next ih => exact ⟨h.1, fun a => ih a (h.2 a)⟩
  | wait c next drop ih =>
    exact ⟨h.1, fun a => ih a (h.2.1 a), List.forall_mem_append.2 ⟨h.2.2, hrelease⟩⟩
  | timed c limit next late drop ih ihlate =>
    exact ⟨h.1, fun a => ih a (h.2.1 a), ihlate h.2.2.1,
      List.forall_mem_append.2 ⟨h.2.2.2, hrelease⟩⟩

theorem Calls.holding {release : List Call} (hrelease : ∀ c ∈ release, P c) (h : t.Calls P) :
    (t.holding release).Calls P :=
  (h.covered hrelease).bind fun _ => .run hrelease trivial

theorem Calls.timeout {limit : Time} (h : t.Calls P) : (t.timeout limit).Calls P := by
  induction t with
  | done a => trivial
  | call c next ih => exact ⟨h.1, fun a => ih a (h.2 a)⟩
  | wait c next drop ih =>
    exact ⟨h.1, fun a => ih a (h.2.1 a), .run h.2.2 trivial, h.2.2⟩
  | timed c own next late drop ih ihlate =>
    exact ⟨h.1, fun a => ih a (h.2.1 a), ihlate h.2.2.1, h.2.2.2⟩

theorem Calls.ask {c : Call} (h : P c) : (Task.ask c : Task Call Answer Time (Answer c)).Calls P :=
  ⟨h, fun _ => trivial⟩

theorem Calls.await {c : Call} (h : P c) :
    (Task.await c : Task Call Answer Time (Answer c)).Calls P :=
  ⟨h, fun _ => trivial, by simp⟩

end Task

/-! ## Two contracts -/

section
variable {L L' Call : Type} {Answer : Call → Type} {Time : Type} {α : Type}

/-- Both contracts at once. -/
def Contract.meet (C : Contract L Call Answer) (C' : Contract L' Call Answer) :
    Contract (L × L') Call Answer where
  may x c := C.may x.1 c ∧ C'.may x.2 c
  knows x c a := C.knows x.1 c a ∧ C'.knows x.2 c a
  after x c a := (C.after x.1 c a, C'.after x.2 c a)

variable {C : Contract L Call Answer} {C' : Contract L' Call Answer} {Q : L → α → Prop}
  {Q' : L' → α → Prop} {D : L → Prop} {D' : L' → Prop} {l : L} {l' : L'}
  {t : Task Call Answer Time α}

theorem Unwinds.meet {cs : List Call} (h : Unwinds C D cs l) (h' : Unwinds C' D' cs l') :
    Unwinds (C.meet C') (fun x => D x.1 ∧ D' x.2) cs (l, l') := by
  induction cs generalizing l l' with
  | nil => exact ⟨h, h'⟩
  | cons c cs ih => exact ⟨⟨h.1, h'.1⟩, fun a ha => ih (h.2 a ha.1) (h'.2 a ha.2)⟩

/-- A program that keeps to two contracts keeps to both at once. -/
theorem Safe.meet (h : Safe C Q D t l) (h' : Safe C' Q' D' t l') :
    Safe (C.meet C') (fun x a => Q x.1 a ∧ Q' x.2 a) (fun x => D x.1 ∧ D' x.2) t (l, l') := by
  induction t generalizing l l' with
  | done a => exact ⟨h, h'⟩
  | call c next ih => exact ⟨⟨h.1, h'.1⟩, fun a ha => ih a (h.2 a ha.1) (h'.2 a ha.2)⟩
  | wait c next drop ih =>
    exact ⟨⟨h.1, h'.1⟩, fun a ha => ih a (h.2.1 a ha.1) (h'.2.1 a ha.2), h.2.2.meet h'.2.2⟩
  | timed c limit next late drop ih ihlate =>
    exact ⟨⟨h.1, h'.1⟩, fun a ha => ih a (h.2.1 a ha.1) (h'.2.1 a ha.2),
      ihlate h.2.2.1 h'.2.2.1, h.2.2.2.meet h'.2.2.2⟩

end

/-! ## Protocols of a system -/

section
variable {σ Call : Type} {Answer : Call → Type} {Time Event Request α L : Type}

/-- What a new program holds, what it holds at its end or when it has been dropped, and what is
invariant. -/
structure Protocol (S : System σ Call Answer Time Event Request α) (L : Type) extends
    Contract L Call Answer where
  fresh : σ → Request → L
  ended : L → α → Prop
  gone : L → Prop
  Inv : List (Moment Call Answer Event Request) → σ → List L → Prop

variable {S : System σ Call Answer Time Event Request α}

namespace Protocol

/-- The invariant holds at first, each program is safe from its start on, and every step that a
program may make keeps the invariant. -/
structure Kept (P : Protocol S L) : Prop where
  initial : P.Inv [] S.initial []
  start : ∀ {history s ls r}, P.Inv history s ls →
    Safe P.toContract P.ended P.gone (S.program r) (P.fresh s r) ∧
      P.Inv (history ++ [.started ls.length r]) s (ls ++ [P.fresh s r])
  call : ∀ {history s ls i l c a s'}, P.Inv history s ls → ls[i]? = some l → P.may l c →
    S.exec i c s a s' → P.knows l c a ∧
      P.Inv (history ++ [.answered i c a]) s' (ls.set i (P.after l c a))
  late : ∀ {history s ls i}, P.Inv history s ls → P.Inv (history ++ [.late i]) s ls
  cancelled : ∀ {history s ls i}, P.Inv history s ls → P.Inv (history ++ [.cancelled i]) s ls
  outside : ∀ {history s ls e s'}, P.Inv history s ls → S.outside s e s' →
    P.Inv (history ++ [.happened e]) s' ls

/-- What is left of a program is safe. -/
def Holds (P : Protocol S L) : Running Call Answer Time α → L → Prop
  | .active t, l => Safe P.toContract P.ended P.gone t l
  | .dropped cs, l => Unwinds P.toContract P.gone cs l

/-- The invariant of the protocol, and each of the programs. -/
structure Good (P : Protocol S L) (history : List (Moment Call Answer Event Request))
    (p : Pool σ Call Answer Time α) (ls : List L) : Prop where
  length : ls.length = p.running.length
  inv : P.Inv history p.shared ls
  holds : ∀ (i : Nat) (r : Running Call Answer Time α) (l : L), p.running[i]? = some r →
    ls[i]? = some l → P.Holds r l

variable {P : Protocol S L} {history : List (Moment Call Answer Event Request)}
  {p : Pool σ Call Answer Time α} {ls : List L} {i : Nat}

theorem Good.local (h : P.Good history p ls) {r : Running Call Answer Time α}
    (hr : p.running[i]? = some r) : ∃ l, ls[i]? = some l ∧ P.Holds r l := by
  have hi : i < ls.length := by
    rw [h.length]
    exact (List.getElem?_eq_some_iff.1 hr).1
  exact ⟨ls[i], List.getElem?_eq_getElem hi, h.holds i r _ hr (List.getElem?_eq_getElem hi)⟩

theorem Good.put (h : P.Good history p ls) {r : Running Call Answer Time α} {l : L} {s : σ}
    {history' : List (Moment Call Answer Event Request)} (hinv : P.Inv history' s (ls.set i l))
    (hr : P.Holds r l) : P.Good history' ⟨s, p.running.set i r⟩ (ls.set i l) := by
  refine ⟨by simp [h.length], hinv, ?_⟩
  intro j r' l' hr' hl'
  rw [List.getElem?_set] at hr' hl'
  by_cases hj : i = j
  · rw [if_pos hj] at hr' hl'
    split at hr'
    · split at hl'
      · rw [← Option.some.inj hr', ← Option.some.inj hl']
        exact hr
      · cases hl'
    · cases hr'
  · rw [if_neg hj] at hr' hl'
    exact h.holds j r' l' hr' hl'

theorem Good.stay (h : P.Good history p ls) {r : Running Call Answer Time α} {l : L}
    {history' : List (Moment Call Answer Event Request)} (hl : ls[i]? = some l)
    (hinv : P.Inv history' p.shared ls) (hr : P.Holds r l) :
    P.Good history' (p.put i r) ls := by
  have hset : ls.set i l = ls := by
    obtain ⟨hi, rfl⟩ := List.getElem?_eq_some_iff.1 hl
    exact List.set_getElem_self hi
  have hput : P.Good history' ⟨p.shared, p.running.set i r⟩ (ls.set i l) :=
    h.put (hset.symm ▸ hinv) hr
  rw [hset] at hput
  exact hput

theorem Good.answered (hP : P.Kept) (h : P.Good history p ls) {r r' : Running Call Answer Time α}
    {c : Call} {a : Answer c} {s : σ} (hr : p.running[i]? = some r)
    (hexec : S.exec i c p.shared a s)
    (hmay : ∀ l, P.Holds r l → P.may l c)
    (hnext : ∀ l, P.Holds r l → P.knows l c a → P.Holds r' (P.after l c a)) :
    ∃ ls', P.Good (history ++ [.answered i c a]) ⟨s, p.running.set i r'⟩ ls' := by
  obtain ⟨l, hl, hholds⟩ := h.local hr
  obtain ⟨hknows, hinv⟩ := hP.call h.inv hl (hmay l hholds) hexec
  exact ⟨_, h.put hinv (hnext l hholds hknows)⟩

/-- A step keeps a pool good. -/
theorem Good.step (hP : P.Kept) (h : P.Good history p ls) {m : Moment Call Answer Event Request}
    {q : Pool σ Call Answer Time α} (hstep : Step S p m q) :
    ∃ ls', P.Good (history ++ [m]) q ls' := by
  cases hstep with
  | start =>
    rename_i r
    obtain ⟨hsafe, hinv⟩ := hP.start (r := r) h.inv
    rw [h.length] at hinv
    refine ⟨_, by simp [h.length], hinv, ?_⟩
    intro i r' l hr' hl
    rcases Nat.lt_trichotomy i p.running.length with hlt | rfl | hgt
    · rw [List.getElem?_append_left hlt] at hr'
      rw [List.getElem?_append_left (h.length ▸ hlt)] at hl
      exact h.holds i r' l hr' hl
    · rw [List.getElem?_append_right (Nat.le_refl _), Nat.sub_self] at hr'
      rw [← h.length, List.getElem?_append_right (Nat.le_refl _), Nat.sub_self] at hl
      cases hr'
      cases hl
      exact hsafe
    · rw [List.getElem?_eq_none (by simp; omega)] at hr'
      cases hr'
  | call hr hexec =>
    exact h.answered hP hr hexec (fun _ hs => hs.1) fun _ hs ha => hs.2 _ ha
  | wait hr hexec =>
    exact h.answered hP hr hexec (fun _ hs => hs.1) fun _ hs ha => hs.2.1 _ ha
  | timed hr hexec =>
    exact h.answered hP hr hexec (fun _ hs => hs.1) fun _ hs ha => hs.2.1 _ ha
  | unwind hr hexec =>
    exact h.answered hP hr hexec (fun _ hs => hs.1) fun _ hs ha => hs.2 _ ha
  | late hr hexpired =>
    obtain ⟨l, hl, hs⟩ := h.local hr
    exact ⟨ls, h.stay hl (hP.late h.inv) hs.2.2.1⟩
  | cancel hr =>
    obtain ⟨l, hl, hs⟩ := h.local hr
    exact ⟨ls, h.stay hl (hP.cancelled h.inv) hs.2.2⟩
  | cancel_timed hr =>
    obtain ⟨l, hl, hs⟩ := h.local hr
    exact ⟨ls, h.stay hl (hP.cancelled h.inv) hs.2.2.2⟩
  | outside hout => exact ⟨ls, h.length, hP.outside h.inv hout, h.holds⟩

/-- In every pool that is reached, the protocol is kept. -/
theorem Kept.reached (hP : P.Kept) (h : Reached S history p) : ∃ ls, P.Good history p ls := by
  induction h with
  | start => exact ⟨[], rfl, hP.initial, by simp⟩
  | step _ hstep ih =>
    obtain ⟨ls, hgood⟩ := ih
    exact hgood.step hP hstep

end Protocol

end

/-! ## What a program has been told -/

section
variable {σ Call : Type} {Answer : Call → Type} {Time Event Request α : Type}

/-- The request of a program, and its calls so far, each with its answer. -/
structure Past (Call : Type) (Answer : Call → Type) (Request : Type) where
  request : Request
  calls : List (Σ c : Call, Answer c)

/-- The past after one more answer. -/
def Past.told (l : Past Call Answer Request) (c : Call) (a : Answer c) :
    Past Call Answer Request := { l with calls := l.calls ++ [⟨c, a⟩] }

/-- The program decides by its past alone: no answer is ruled out. -/
def by_past (may : Request → List (Σ c : Call, Answer c) → Call → Prop) :
    Contract (Past Call Answer Request) Call Answer where
  may l := may l.request l.calls
  knows _ _ _ := True
  after := Past.told

/-- What happened from one past to a later one of the same program. -/
structure Past.Le (l l' : Past Call Answer Request) : Prop where
  request : l'.request = l.request
  calls : l.calls <+: l'.calls

theorem Past.Le.refl (l : Past Call Answer Request) : l.Le l := ⟨rfl, List.prefix_rfl⟩

theorem Past.Le.trans {l l' l'' : Past Call Answer Request} (h : l.Le l') (h' : l'.Le l'') :
    l.Le l'' := ⟨h'.request.trans h.request, h.calls.trans h'.calls⟩

theorem Past.le_told (l : Past Call Answer Request) (c : Call) (a : Answer c) :
    l.Le (l.told c a) := ⟨rfl, List.prefix_append _ _⟩

theorem Past.Le.mem {l l' : Past Call Answer Request} (h : l.Le l') {x : Σ c : Call, Answer c}
    (hx : x ∈ l.calls) : x ∈ l'.calls := h.calls.subset hx

section
variable {may : Request → List (Σ c : Call, Answer c) → Call → Prop}
  {Q : Past Call Answer Request → α → Prop} {D : Past Call Answer Request → Prop}
  {l : Past Call Answer Request} {t : Task Call Answer Time α}

theorem Safe.since {c : Call} {a : Answer c}
    (h : Safe (by_past may) (fun l' b => Q l' b ∧ (l.told c a).Le l') D t
      (l.told c a)) :
    Safe (by_past may) (fun l' b => Q l' b ∧ l.Le l') D t (l.told c a) :=
  h.conseq (fun _ _ hl => ⟨hl.1, (l.le_told c a).trans hl.2⟩) fun _ hl => hl

/-- The past is never lost. -/
theorem Safe.remembered (h : Safe (by_past may) Q D t l) :
    Safe (by_past may) (fun l' a => Q l' a ∧ l.Le l') D t l := by
  induction t generalizing l with
  | done a => exact ⟨h, .refl l⟩
  | call c next ih => exact ⟨h.1, fun a ha => since (ih a (h.2 a ha))⟩
  | wait c next drop ih => exact ⟨h.1, fun a ha => since (ih a (h.2.1 a ha)), h.2.2⟩
  | timed c limit next late drop ih ihlate =>
    exact ⟨h.1, fun a ha => since (ih a (h.2.1 a ha)), ihlate h.2.2.1, h.2.2.2⟩

end

/-! ## Histories -/

/-- A place in a longer list is its last one, or one of the shorter list. -/
theorem split_snoc {μ : Type} {xs before later : List μ} {x y : μ}
    (h : xs ++ [y] = before ++ x :: later) :
    (before = xs ∧ x = y) ∨ ∃ later', xs = before ++ x :: later' := by
  rcases List.eq_nil_or_concat later with rfl | ⟨later, last, rfl⟩
  · obtain ⟨hbefore, hlast⟩ := List.append_inj' h rfl
    exact .inl ⟨hbefore.symm, (List.singleton_inj.1 hlast).symm⟩
  · rw [List.concat_eq_append, ← List.cons_append, ← List.append_assoc] at h
    exact .inr ⟨later, (List.append_inj' h rfl).1⟩

/-- What this moment tells a program. -/
def Moment.told (i : Nat) : Moment Call Answer Event Request → Option (Σ c : Call, Answer c)
  | .answered j c a => if j = i then some ⟨c, a⟩ else none
  | _ => none

/-- The answers that a program was given. -/
def answers (i : Nat) (history : List (Moment Call Answer Event Request)) :
    List (Σ c : Call, Answer c) := history.filterMap (Moment.told i)

/-- Each call is one that its program may make after what it was told before. -/
def Decided (may : Request → List (Σ c : Call, Answer c) → Call → Prop)
    (history : List (Moment Call Answer Event Request)) : Prop :=
  ∀ (before later : List (Moment Call Answer Event Request)) (i : Nat) (c : Call) (a : Answer c),
    history = before ++ .answered i c a :: later →
      ∃ r, .started i r ∈ before ∧ may r (answers i before) c

variable {may : Request → List (Σ c : Call, Answer c) → Call → Prop}
  {history : List (Moment Call Answer Event Request)}

theorem told_answered {i : Nat} {c : Call} {a : Answer c} :
    (Moment.answered i c a : Moment Call Answer Event Request).told i = some ⟨c, a⟩ := if_pos rfl

theorem told_eq_some {i : Nat} {m : Moment Call Answer Event Request} {c : Call} {a : Answer c}
    (h : m.told i = some ⟨c, a⟩) : m = .answered i c a := by
  cases m with
  | answered j c' a' =>
    by_cases hj : j = i
    · subst hj
      rw [told_answered] at h
      cases h
      rfl
    · simp [Moment.told, hj] at h
  | started j r => cases h
  | late j => cases h
  | cancelled j => cases h
  | happened e => cases h

theorem answers_append (i : Nat) (history later : List (Moment Call Answer Event Request)) :
    answers i (history ++ later) = answers i history ++ answers i later :=
  List.filterMap_append

theorem answers_snoc (i : Nat) {m : Moment Call Answer Event Request} :
    answers i (history ++ [m]) = answers i history ++ (m.told i).toList := by
  rw [answers_append]
  unfold answers
  cases hm : m.told i with
  | none => rw [List.filterMap_cons_none hm]; rfl
  | some x => rw [List.filterMap_cons_some hm]; rfl

theorem mem_answers {i : Nat} {c : Call} {a : Answer c} :
    (⟨c, a⟩ : Σ c : Call, Answer c) ∈ answers i history ↔ .answered i c a ∈ history := by
  unfold answers
  rw [List.mem_filterMap]
  constructor
  · intro ⟨m, hmem, hm⟩
    exact told_eq_some hm ▸ hmem
  · intro hmem
    exact ⟨_, hmem, told_answered⟩

theorem Decided.snoc (h : Decided may history) {m : Moment Call Answer Event Request}
    (hm : ∀ i c a, m = .answered i c a →
      ∃ r, .started i r ∈ history ∧ may r (answers i history) c) :
        Decided may (history ++ [m]) := by
  intro before later i c a heq
  rcases split_snoc heq with ⟨rfl, hlast⟩ | ⟨later', rfl⟩
  · exact hm i c a hlast.symm
  · exact h before later' i c a rfl

/-- The pasts of the programs, as the history has them. -/
structure Remembered (may : Request → List (Σ c : Call, Answer c) → Call → Prop)
    (history : List (Moment Call Answer Event Request)) (ls : List (Past Call Answer Request)) :
    Prop where
  decided : Decided may history
  started : ∀ (i : Nat) (l : Past Call Answer Request), ls[i]? = some l →
    .started i l.request ∈ history ∧ l.calls = answers i history
  answered : ∀ (i : Nat) (c : Call) (a : Answer c), .answered i c a ∈ history → i < ls.length

theorem Remembered.quiet {ls : List (Past Call Answer Request)} (h : Remembered may history ls)
    {m : Moment Call Answer Event Request} (hm : ∀ i, m.told i = none) :
    Remembered may (history ++ [m]) ls := by
  have hne : ∀ i c a, m ≠ .answered i c a := by
    intro i c a heq
    have hnone := hm i
    rw [heq, told_answered] at hnone
    cases hnone
  refine ⟨h.decided.snoc fun i c a heq => absurd heq (hne i c a), ?_, ?_⟩
  · intro i l hl
    obtain ⟨hmem, hcalls⟩ := h.started i l hl
    rw [answers_snoc, hm, hcalls]
    exact ⟨List.mem_append_left _ hmem, (List.append_nil _).symm⟩
  · intro i c a hmem
    rcases List.mem_append.1 hmem with hmem | hmem
    · exact h.answered i c a hmem
    · exact absurd (List.mem_singleton.1 hmem).symm (hne i c a)

variable {S : System σ Call Answer Time Event Request α}

/-- Each program decides by its past. -/
def past_protocol (S : System σ Call Answer Time Event Request α)
    (may : Request → List (Σ c : Call, Answer c) → Call → Prop)
    (Q : Past Call Answer Request → α → Prop) : Protocol S (Past Call Answer Request) where
  toContract := by_past may
  fresh _ r := ⟨r, []⟩
  ended := Q
  gone _ := True
  Inv history _ ls := Remembered may history ls

variable {Q : Past Call Answer Request → α → Prop}

theorem past_protocol_kept
    (hsafe : ∀ r, Safe (by_past may) Q (fun _ => True) (S.program r) ⟨r, []⟩) :
    (past_protocol S may Q).Kept where
  initial := ⟨by intro _ _ _ _ _ h; simp at h, by simp, by simp⟩
  start := by
    intro history s ls r h
    refine ⟨hsafe r, h.decided.snoc (by simp), ?_, ?_⟩
    · intro i l hl
      rw [answers_snoc]
      rcases Nat.lt_or_ge i ls.length with hi | hi
      · rw [List.getElem?_append_left hi] at hl
        obtain ⟨hmem, hcalls⟩ := h.started i l hl
        exact ⟨List.mem_append_left _ hmem, by rw [hcalls]; exact (List.append_nil _).symm⟩
      · rw [List.getElem?_append_right hi] at hl
        obtain ⟨hi', rfl⟩ := List.getElem?_eq_some_iff.1 hl
        obtain rfl : i = ls.length := by simp at hi'; omega
        refine ⟨List.mem_append_right _ (by simp [past_protocol]), ?_⟩
        have hnone : answers ls.length history = [] := by
          rw [List.eq_nil_iff_forall_not_mem]
          intro x hx
          exact absurd (h.answered _ _ _ (mem_answers.1 hx)) (Nat.lt_irrefl _)
        rw [hnone]
        simp [past_protocol, Moment.told]
    · intro i c a hmem
      rw [List.length_append]
      have := h.answered i c a (by simpa using hmem)
      omega
  call := by
    intro history s ls i l c a s' h hl hmay _
    obtain ⟨hmem, hcalls⟩ := h.started i l hl
    refine ⟨trivial, h.decided.snoc ?_, ?_, ?_⟩
    · intro j c' a' heq
      cases heq
      exact ⟨l.request, hmem, hcalls ▸ hmay⟩
    · intro j l' hl'
      rw [answers_snoc]
      rw [List.getElem?_set] at hl'
      split at hl'
      · rename_i hij
        subst hij
        split at hl'
        · cases hl'
          refine ⟨List.mem_append_left _ hmem, ?_⟩
          show l.calls ++ [⟨c, a⟩] = _
          rw [hcalls]
          simp [Moment.told]
        · cases hl'
      · rename_i hij
        obtain ⟨hmem', hcalls'⟩ := h.started j l' hl'
        refine ⟨List.mem_append_left _ hmem', ?_⟩
        rw [hcalls', Moment.told, if_neg hij]
        exact (List.append_nil _).symm
    · intro j c' a' hmem'
      rw [List.length_set]
      rcases List.mem_append.1 hmem' with hmem' | hmem'
      · exact h.answered j c' a' hmem'
      · cases List.mem_singleton.1 hmem'
        exact (List.getElem?_eq_some_iff.1 hl).1
  late h := h.quiet fun _ => rfl
  cancelled h := h.quiet fun _ => rfl
  outside h _ := h.quiet fun _ => rfl

/-- Programs that decide by what they were told have done so in every history. -/
theorem Reached.decided {p : Pool σ Call Answer Time α} (h : Reached S history p)
    (hsafe : ∀ r, Safe (by_past may) Q (fun _ => True) (S.program r) ⟨r, []⟩) :
    Decided may history ∧ ∀ (i : Nat) (a : α), p.running[i]? = some (.active (.done a)) →
      ∃ r, .started i r ∈ history ∧ Q ⟨r, answers i history⟩ a := by
  obtain ⟨ls, hgood⟩ := (past_protocol_kept hsafe).reached h
  refine ⟨hgood.inv.decided, ?_⟩
  intro i a hrunning
  obtain ⟨l, hl, hdone⟩ := hgood.local hrunning
  obtain ⟨hmem, hcalls⟩ := hgood.inv.started i l hl
  refine ⟨l.request, hmem, ?_⟩
  rw [← hcalls]
  exact hdone

end

/-! ## Earlier steps -/

section
variable {σ Call : Type} {Answer : Call → Type} {Time Event Request α : Type}
  {S : System σ Call Answer Time Event Request α}
  {history before later : List (Moment Call Answer Event Request)} {p : Pool σ Call Answer Time α}

/-- Every moment of a history was a step of a pool that was reached before. -/
theorem Reached.step_at {m : Moment Call Answer Event Request} (h : Reached S history p)
    (hsplit : history = before ++ m :: later) : ∃ q q', Reached S before q ∧ Step S q m q' := by
  induction h generalizing later with
  | start => simp at hsplit
  | step hreached hstep ih =>
    rcases split_snoc hsplit with ⟨rfl, rfl⟩ | ⟨later', rfl⟩
    · exact ⟨_, _, hreached, hstep⟩
    · exact ih rfl

theorem Step.exec {i : Nat} {c : Call} {a : Answer c} {q : Pool σ Call Answer Time α}
    (h : Step S p (.answered i c a) q) : S.exec i c p.shared a q.shared := by
  cases h with
  | call _ hexec => exact hexec
  | wait _ hexec => exact hexec
  | timed _ hexec => exact hexec
  | unwind _ hexec => exact hexec

/-- The programs are numbered as they start. -/
theorem Reached.started (h : Reached S history p) :
    (∀ (i : Nat) (r : Request), .started i r ∈ history → i < p.running.length) ∧
      ∀ (i : Nat) (r r' : Request), .started i r ∈ history → .started i r' ∈ history → r = r' := by
  induction h with
  | start => simp
  | @step history p m q _ hstep ih =>
    have hquiet : (∀ i r, m ≠ .started i r) → q.running.length = p.running.length →
        (∀ (i : Nat) (r : Request), .started i r ∈ history ++ [m] → i < q.running.length) ∧
          ∀ (i : Nat) (r r' : Request), .started i r ∈ history ++ [m] →
            .started i r' ∈ history ++ [m] → r = r' := by
      intro hm hlength
      have hold : ∀ {i : Nat} {r : Request}, .started i r ∈ history ++ [m] →
        .started i r ∈ history :=
        fun hmem => (List.mem_append.1 hmem).resolve_right fun hlast =>
          hm _ _ (List.mem_singleton.1 hlast).symm
      exact ⟨fun i r hmem => hlength ▸ ih.1 i r (hold hmem),
        fun i r r' hmem hmem' => ih.2 i r r' (hold hmem) (hold hmem')⟩
    cases hstep with
    | start =>
      rename_i r₀
      have hsplit : ∀ {i : Nat} {r : Request}, .started i r ∈ history ++
          [(.started p.running.length r₀ : Moment Call Answer Event Request)] →
          .started i r ∈ history ∨ i = p.running.length ∧ r = r₀ := by
        intro i r hmem
        refine (List.mem_append.1 hmem).imp_right fun hlast => ?_
        cases List.mem_singleton.1 hlast
        exact ⟨rfl, rfl⟩
      refine ⟨?_, ?_⟩
      · intro i r hmem
        rw [List.length_append]
        rcases hsplit hmem with hmem | ⟨rfl, -⟩
        · exact Nat.lt_succ_of_lt (ih.1 i r hmem)
        · exact Nat.lt_succ_self _
      · intro i r r' hmem hmem'
        rcases hsplit hmem with hmem | ⟨rfl, rfl⟩
        · rcases hsplit hmem' with hmem' | ⟨rfl, -⟩
          · exact ih.2 i r r' hmem hmem'
          · exact absurd (ih.1 _ _ hmem) (Nat.lt_irrefl _)
        · rcases hsplit hmem' with hmem' | ⟨-, rfl⟩
          · exact absurd (ih.1 _ _ hmem') (Nat.lt_irrefl _)
          · rfl
    | outside => exact hquiet (by simp) rfl
    | _ => exact hquiet (by simp) List.length_set

/-- When the call was made, it had this answer. -/
theorem Reached.exec_at {i : Nat} {c : Call} {a : Answer c} (h : Reached S history p)
    (hsplit : history = before ++ .answered i c a :: later) :
    ∃ q s', Reached S before q ∧ S.exec i c q.shared a s' := by
  obtain ⟨q, q', hreached, hstep⟩ := h.step_at hsplit
  exact ⟨q, q'.shared, hreached, hstep.exec⟩

end

/-! ## What does not depend on the programs -/

section
variable {σ Call : Type} {Answer : Call → Type} {Time Event Request α : Type}

/-- Every call and every event keeps it, whoever makes the call. -/
structure Invariant (S : System σ Call Answer Time Event Request α)
    (Inv : List (Moment Call Answer Event Request) → σ → Prop) : Prop where
  initial : Inv [] S.initial
  start : ∀ {history s} (i : Nat) (r : Request), Inv history s → Inv (history ++ [.started i r]) s
  call : ∀ {history s i c a s'}, Inv history s → S.exec i c s a s' →
    Inv (history ++ [.answered i c a]) s'
  late : ∀ {history s} (i : Nat), Inv history s → Inv (history ++ [.late i]) s
  cancelled : ∀ {history s} (i : Nat), Inv history s → Inv (history ++ [.cancelled i]) s
  outside : ∀ {history s e s'}, Inv history s → S.outside s e s' →
    Inv (history ++ [.happened e]) s'

variable {S : System σ Call Answer Time Event Request α}
  {Inv : List (Moment Call Answer Event Request) → σ → Prop}

theorem Invariant.reached (hInv : Invariant S Inv)
    {history : List (Moment Call Answer Event Request)} {p : Pool σ Call Answer Time α}
    (h : Reached S history p) : Inv history p.shared := by
  induction h with
  | start => exact hInv.initial
  | step _ hstep ih =>
    cases hstep with
    | start => exact hInv.start _ _ ih
    | call _ hexec => exact hInv.call ih hexec
    | wait _ hexec => exact hInv.call ih hexec
    | timed _ hexec => exact hInv.call ih hexec
    | late _ _ => exact hInv.late _ ih
    | cancel _ => exact hInv.cancelled _ ih
    | cancel_timed _ => exact hInv.cancelled _ ih
    | unwind _ hexec => exact hInv.call ih hexec
    | outside hout => exact hInv.outside ih hout

end

end tasks
