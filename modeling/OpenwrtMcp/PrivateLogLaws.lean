-- What is in the log files: whatever step of a rotation is the last one, the files keep their
-- order, and only the oldest one may be gone.
import OpenwrtMcp.PrivateLog

open json programs text

namespace openwrt_mcp_host_platform.PrivateLog

/-! ## The files of a log -/

/-- The generations that there are, the oldest first. -/
def generations (dir : Dir) (name : Str) : (retained : Nat) → List Bytes
  | 0 => []
  | index + 1 => (dir (generation name (index + 1))).toList ++ generations dir name index

def files (dir : Dir) (log : PrivateLog) : List Bytes :=
  generations dir log.name log.retained ++ (dir log.name).toList

theorem generation_ne (name : Str) (index : Nat) : generation name index ≠ name := by
  intro h
  have := congrArg List.length h
  simp [generation] at this

theorem generation_injective (name : Str) : Function.Injective (generation name) := by
  intro i j h
  exact decimal_injective (List.cons.inj (List.append_cancel_left h)).2

theorem generation_ne_of_ne {name : Str} {i j : Nat} (h : i ≠ j) :
    generation name i ≠ generation name j := fun heq => h (generation_injective name heq)

theorem generations_update {dir : Dir} {name m : Str} {content : Option Bytes} {n : Nat}
    (h : ∀ i, i ≤ n → m ≠ generation name i) :
    generations (Function.update dir m content) name n = generations dir name n := by
  induction n with
  | zero => rfl
  | succ n ih =>
    rw [generations, generations, ih fun i hi => h i (Nat.le_succ_of_le hi),
      Function.update_of_ne (h (n + 1) (Nat.le_refl _)).symm]

/-- A generation that moves into a hole above it keeps its place in the order. -/
theorem generations_move {dir : Dir} {name : Str} {k n : Nat} {content : Bytes}
    (hk : k + 2 ≤ n) (hhole : dir (generation name (k + 2)) = none)
    (hsource : dir (generation name (k + 1)) = some content) :
    generations (Function.update (Function.update dir (generation name (k + 2)) (some content))
      (generation name (k + 1)) none) name n = generations dir name n := by
  induction n with
  | zero => omega
  | succ n ih =>
    by_cases hn : n = k + 1
    · subst hn
      have hbelow : ∀ j, k < j → ∀ i, i ≤ k → generation name j ≠ generation name i :=
        fun j hj i hi => generation_ne_of_ne (by omega)
      rw [generations, generations, generations, generations,
        generations_update (hbelow (k + 1) (by omega)),
        generations_update (hbelow (k + 2) (by omega)), Function.update_self,
        Function.update_of_ne (generation_ne_of_ne (by omega)), Function.update_self, hhole,
        hsource]
      simp
    · have hne₁ : generation name (n + 1) ≠ generation name (k + 1) :=
        generation_ne_of_ne (by omega)
      have hne₂ : generation name (n + 1) ≠ generation name (k + 2) :=
        generation_ne_of_ne (by omega)
      rw [generations, generations, ih (by omega), Function.update_of_ne hne₁,
        Function.update_of_ne hne₂]

/-- The oldest generation is the first of all. -/
theorem generations_unlink {dir : Dir} {name : Str} {n : Nat} (hn : 1 ≤ n) :
    generations dir name n = (dir (generation name n)).toList ++
      generations (Function.update dir (generation name n) none) name n := by
  obtain ⟨k, rfl⟩ := Nat.exists_eq_add_of_le' hn
  rw [generations, generations, Function.update_self,
    generations_update fun i hi => generation_ne_of_ne (by omega)]
  simp

/-- The newest generation is the last of all. -/
theorem generations_push {dir : Dir} {name : Str} {n : Nat} {content : Bytes} (hn : 1 ≤ n)
    (hhole : dir (generation name 1) = none) :
    generations (Function.update dir (generation name 1) (some content)) name n =
      generations dir name n ++ [content] := by
  induction n with
  | zero => omega
  | succ n ih =>
    rw [generations, generations]
    by_cases hzero : n = 0
    · subst hzero
      simp [generations, hhole]
    · rw [Function.update_of_ne (generation_ne_of_ne (by omega)), ih (by omega),
        List.append_assoc]

/-! ## Calls -/

/-- A fact that does not depend on the calls to come. -/
def Blind (P : World → Prop) : Prop := ∀ w faults, P w → P { w with faults }

variable {P Q : World → Prop} {E : HostError → World → Prop}

theorem next_fault_spec (hP : Blind P) : Triple P next_fault (fun _ => P) E := by
  intro w hw
  unfold next_fault
  cases h : w.faults with
  | nil => simpa [h] using hw
  | cons fault rest => exact hP w rest hw

theorem stop_on_spec (error : Option HostError) :
    Triple P (stop_on error) (fun _ => P) fun _ => P := by
  cases error with
  | none => exact Triple.pure fun _ h => h
  | some e => exact Triple.stop fun _ h => h

theorem validate_metadata_spec (hP : Blind P) :
    Triple P validate_metadata (fun _ => P) fun _ => P :=
  (next_fault_spec hP).bind fun fault => stop_on_spec fault.error

theorem file_at_spec (hP : Blind P) (name : Str) :
    Triple P (file_at name) (fun found w => P w ∧ found = (w.dir name).isSome) fun _ => P := by
  refine (validate_metadata_spec hP).bind fun _ => Triple.get_bind fun w hw => ?_
  refine Triple.pure ?_
  rintro _ rfl
  exact ⟨hw, rfl⟩

theorem unlinkat_spec (hP : Blind P) {name : Str}
    (h : ∀ w, P w → Q { w with dir := Function.update w.dir name none }) :
    Triple P (unlinkat name) (fun _ => Q) fun _ => P :=
  (next_fault_spec hP).bind fun fault =>
    (stop_on_spec (unavailable fault)).bind fun _ => Triple.modify h

theorem renameat_spec (hP : Blind P) {source target : Str}
    (h : ∀ w, P w → ∀ content, w.dir source = some content → Q { w with
      dir := Function.update (Function.update w.dir target (some content)) source none
      replaced := w.replaced || (w.dir target).isSome }) :
    Triple P (renameat source target) (fun _ => Q) fun _ => P := by
  refine (next_fault_spec hP).bind fun fault => (stop_on_spec (unavailable fault)).bind fun _ =>
    Triple.get_bind fun w hw => ?_
  cases hsource : w.dir source with
  | none => exact Triple.stop fun _ heq => heq ▸ hw
  | some content =>
    rw [Prog.ok_or_some_bind]
    refine Triple.modify ?_
    rintro _ rfl
    exact h _ hw content hsource

/-! ## Rotations -/

/-- A name that the log may use. -/
def Owned (log : PrivateLog) (m : Str) : Prop :=
  m = log.name ∨ ∃ i, 1 ≤ i ∧ i ≤ log.retained ∧ m = generation log.name i

/-- The log that was, with these files, in a directory that is otherwise the same. -/
structure Kept (w₀ : World) (fs : List Bytes) (w : World) : Prop where
  name : w.log.name = w₀.log.name
  max_bytes : w.log.max_bytes = w₀.log.max_bytes
  retained : w.log.retained = w₀.log.retained
  replaced : w.replaced = w₀.replaced
  others : ∀ m, ¬ Owned w₀.log m → w.dir m = w₀.dir m
  files : files w.dir w₀.log = fs

theorem Kept.blind (w₀ : World) (fs : List Bytes) : Blind (Kept w₀ fs) :=
  fun _ _ h => ⟨h.name, h.max_bytes, h.retained, h.replaced, h.others, h.files⟩

theorem Owned.generation {log : PrivateLog} {i : Nat} (h1 : 1 ≤ i) (h2 : i ≤ log.retained) :
    Owned log (generation log.name i) := .inr ⟨i, h1, h2, rfl⟩

/-- A change of one file of the log. -/
theorem Kept.update {w₀ w : World} {fs fs' : List Bytes} (h : Kept w₀ fs w) {m : Str}
    {content : Option Bytes} (hm : Owned w₀.log m)
    (hfiles : PrivateLog.files (Function.update w.dir m content) w₀.log = fs') :
    Kept w₀ fs' { w with dir := Function.update w.dir m content } where
  name := h.name
  max_bytes := h.max_bytes
  retained := h.retained
  replaced := h.replaced
  others := by
    intro m' hm'
    have hne : m' ≠ m := fun heq => hm' (heq ▸ hm)
    exact (Function.update_of_ne hne _ _).trans (h.others m' hm')
  files := hfiles

/-- A move of one file of the log to a name that is free. -/
theorem Kept.move {w₀ w : World} {fs fs' : List Bytes} (h : Kept w₀ fs w) {source target : Str}
    {content : Bytes} (hs : Owned w₀.log source) (ht : Owned w₀.log target)
    (hhole : w.dir target = none)
    (hfiles : PrivateLog.files (Function.update (Function.update w.dir target (some content)) source
      none) w₀.log = fs') :
    Kept w₀ fs' { w with
      dir := Function.update (Function.update w.dir target (some content)) source none
      replaced := w.replaced || (w.dir target).isSome } where
  name := h.name
  max_bytes := h.max_bytes
  retained := h.retained
  replaced := by simp [hhole, h.replaced]
  others := by
    intro m' hm'
    have hne : m' ≠ source := fun heq => hm' (heq ▸ hs)
    have hne' : m' ≠ target := fun heq => hm' (heq ▸ ht)
    exact (Function.update_of_ne hne _ _).trans
      ((Function.update_of_ne hne' _ _).trans (h.others m' hm'))
  files := hfiles

theorem look_at_spec (hP : Blind P) (name : Str) (retained : Nat) :
    Triple P (look_at name retained) (fun _ => P) fun _ => P := by
  induction retained with
  | zero => exact Triple.pure fun _ h => h
  | succ index ih =>
    refine ih.bind fun _ => (file_at_spec hP _).bind fun _ => Triple.pure fun _ h => h.1

theorem shift_spec {w₀ : World} {fs : List Bytes} {last : Nat}
    (hlast : last + 1 ≤ w₀.log.retained) :
    Triple (fun w => Kept w₀ fs w ∧ w.dir (generation w₀.log.name (last + 1)) = none)
      (shift w₀.log.name last)
      (fun _ w => Kept w₀ fs w ∧ w.dir (generation w₀.log.name 1) = none) fun _ => Kept w₀ fs := by
  induction last with
  | zero => exact Triple.pure fun _ h => h
  | succ k ih =>
    have hblind : Blind fun w => Kept w₀ fs w ∧ w.dir (generation w₀.log.name (k + 2)) = none :=
      fun w faults h => ⟨Kept.blind w₀ fs w faults h.1, h.2⟩
    have hrest := ih (by omega)
    refine ((file_at_spec hblind _).conseq (fun _ h => h) (fun _ _ h => h) fun _ _ h => h.1).bind
      fun found => ?_
    have hmove : Triple (fun w => (Kept w₀ fs w ∧ w.dir (generation w₀.log.name (k + 2)) = none) ∧
          found = (w.dir (generation w₀.log.name (k + 1))).isSome)
        (Prog.when found
          (renameat (generation w₀.log.name (k + 1)) (generation w₀.log.name (k + 2))))
        (fun _ w => Kept w₀ fs w ∧ w.dir (generation w₀.log.name (k + 1)) = none)
        fun _ => Kept w₀ fs := by
      cases found with
      | false =>
        refine Triple.pure fun w h => ⟨h.1.1, ?_⟩
        simpa using h.2.symm
      | true =>
        have hblind' : Blind fun w =>
            (Kept w₀ fs w ∧ w.dir (generation w₀.log.name (k + 2)) = none) ∧
              true = (w.dir (generation w₀.log.name (k + 1))).isSome :=
          fun w faults h => ⟨hblind w faults h.1, h.2⟩
        refine (renameat_spec hblind' ?_).conseq (fun _ h => h) (fun _ _ h => h) fun _ _ h => h.1.1
        rintro w ⟨⟨hkept, hhole⟩, -⟩ content hsource
        refine ⟨hkept.move (Owned.generation (by omega) (by omega))
          (Owned.generation (by omega) hlast) hhole ?_, by simp⟩
        rw [← hkept.files, files, files, generations_move hlast hhole hsource,
          Function.update_of_ne (generation_ne _ _).symm,
          Function.update_of_ne (generation_ne _ _).symm]
    exact hmove.bind fun _ => hrest

/-- The files without the oldest generation. -/
def survivors (w : World) : List Bytes :=
  files (Function.update w.dir (generation w.log.name w.log.retained) none) w.log

theorem files_eq {w : World} (h : 1 ≤ w.log.retained) : files w.dir w.log =
    (w.dir (generation w.log.name w.log.retained)).toList ++ survivors w := by
  rw [survivors, files, files, generations_unlink h,
    Function.update_of_ne (generation_ne _ _).symm, List.append_assoc]

/-- All the files, or all but the oldest generation. -/
def MayLose (w₀ : World) (fs : List Bytes) : Prop :=
  fs.flatten = (files w₀.dir w₀.log).flatten ∨ fs.flatten = (survivors w₀).flatten

/-- The world as it was, apart from the calls that were made. -/
def Unchanged (w₀ w : World) : Prop :=
  w.dir = w₀.dir ∧ w.log = w₀.log ∧ w.replaced = w₀.replaced

theorem Unchanged.blind (w₀ : World) : Blind (Unchanged w₀) := fun _ _ h => h

theorem Unchanged.kept {w₀ w : World} (h : Unchanged w₀ w) : Kept w₀ (files w₀.dir w₀.log) w := by
  obtain ⟨hdir, hlog, hreplaced⟩ := h
  exact ⟨by rw [hlog], by rw [hlog], by rw [hlog], hreplaced, fun _ _ => by rw [hdir], by rw [hdir]⟩

/-- Any call that fails leaves the files, up to the oldest. -/
def Stopped (w₀ w : World) : Prop := ∃ fs, Kept w₀ fs w ∧ MayLose w₀ fs

theorem create_spec (hP : Blind P) {name : Str}
    (h : ∀ w, P w → Q { w with dir := create name w.dir }) :
    Triple P (append_file name) (fun _ => Q) fun _ w => P w ∨ Q w := by
  refine (next_fault_spec hP).bind fun fault => ?_
  cases herror : fault.error with
  | none =>
    refine Triple.bind (Triple.modify h) fun _ => Triple.pure fun _ hw => hw
  | some e =>
    cases hcreated : fault.created with
    | true => exact Triple.bind (Triple.modify h) fun _ => Triple.stop fun _ hw => .inr hw
    | false =>
      exact Triple.bind (Triple.pure fun _ hw => hw) fun _ => Triple.stop fun _ hw => .inl hw

section
variable {w₀ : World}

/-- The first free generation is the last one. -/
theorem unlink_spec (hretained : 1 ≤ w₀.log.retained) (found : Bool) :
    Triple (fun w => (Kept w₀ (files w₀.dir w₀.log) w ∧ w.dir = w₀.dir) ∧
        found = (w.dir (generation w₀.log.name w₀.log.retained)).isSome)
      (Prog.when found (unlinkat (generation w₀.log.name w₀.log.retained)))
      (fun _ w => Kept w₀ (survivors w₀) w ∧
        w.dir (generation w₀.log.name w₀.log.retained) = none)
      fun _ => Kept w₀ (files w₀.dir w₀.log) := by
  cases found with
  | false =>
    refine Triple.pure ?_
    rintro w ⟨⟨hkept, hdir⟩, hfound⟩
    have hnone : w.dir (generation w₀.log.name w₀.log.retained) = none := by simpa using hfound.symm
    refine ⟨?_, hnone⟩
    have hfiles := files_eq hretained
    rw [← hdir, hnone, Option.toList_none, List.nil_append] at hfiles
    rw [← hfiles, hdir]
    exact hkept
  | true =>
    have hblind : Blind fun w => (Kept w₀ (files w₀.dir w₀.log) w ∧ w.dir = w₀.dir) ∧
        true = (w.dir (generation w₀.log.name w₀.log.retained)).isSome :=
      fun w faults h => ⟨⟨Kept.blind w₀ _ w faults h.1.1, h.1.2⟩, h.2⟩
    refine (unlinkat_spec hblind ?_).conseq (fun _ h => h) (fun _ _ h => h) fun _ _ h => h.1.1
    rintro w ⟨⟨hkept, hdir⟩, -⟩
    refine ⟨hkept.update (Owned.generation hretained (Nat.le_refl _)) ?_, by simp⟩
    rw [hdir, survivors]

/-- The active file is the newest generation. -/
theorem retire_spec (hretained : 1 ≤ w₀.log.retained) {fs : List Bytes} :
    Triple (fun w => Kept w₀ fs w ∧ w.dir (generation w₀.log.name 1) = none)
      (renameat w₀.log.name (generation w₀.log.name 1))
      (fun _ w => Kept w₀ fs w ∧ w.dir w₀.log.name = none) fun _ => Kept w₀ fs := by
  have hblind : Blind fun w => Kept w₀ fs w ∧ w.dir (generation w₀.log.name 1) = none :=
    fun w faults h => ⟨Kept.blind w₀ fs w faults h.1, h.2⟩
  refine (renameat_spec hblind ?_).conseq (fun _ h => h) (fun _ _ h => h) fun _ _ h => h.1
  rintro w ⟨hkept, hhole⟩ content hsource
  refine ⟨hkept.move (.inl rfl) (Owned.generation (Nat.le_refl _) hretained) hhole ?_, by simp⟩
  rw [← hkept.files, files, files, Function.update_self, hsource,
    generations_update fun i _ => (generation_ne _ i).symm, generations_push hretained hhole]
  simp

/-- The new active file is empty. -/
theorem reopen_spec {fs : List Bytes} :
    Triple (fun w => Kept w₀ fs w ∧ w.dir w₀.log.name = none) (append_file w₀.log.name)
      (fun _ w => Kept w₀ (fs ++ [[]]) w ∧ w.dir w₀.log.name = some [])
      fun _ w => Kept w₀ fs w ∨ Kept w₀ (fs ++ [[]]) w := by
  have hblind : Blind fun w => Kept w₀ fs w ∧ w.dir w₀.log.name = none :=
    fun w faults h => ⟨Kept.blind w₀ fs w faults h.1, h.2⟩
  refine (create_spec hblind ?_).conseq (fun _ h => h) (fun _ _ h => h)
    fun _ _ h => h.imp And.left And.left
  rintro w ⟨hkept, hnone⟩
  have hcreate : create w₀.log.name w.dir = Function.update w.dir w₀.log.name (some []) := by
    rw [create, hnone]
    rfl
  rw [hcreate]
  refine ⟨hkept.update (.inl rfl) ?_, by simp⟩
  rw [← hkept.files, files, files, Function.update_self, hnone,
    generations_update fun i _ => (generation_ne _ i).symm]
  simp

theorem rotate_spec (hretained : 1 ≤ w₀.log.retained) :
    Triple (Unchanged w₀) rotate
      (fun _ w => Kept w₀ (survivors w₀ ++ [[]]) w ∧ w.dir w₀.log.name = some [] ∧
        w.log.file = true ∧ w.log.size = 0)
      fun _ => Stopped w₀ := by
  have hsame : MayLose w₀ (files w₀.dir w₀.log) := .inl rfl
  have hlost : MayLose w₀ (survivors w₀) := .inr rfl
  have hnew : MayLose w₀ (survivors w₀ ++ [[]]) := .inr (by simp)
  refine Triple.get_bind fun w hw => ?_
  have hname : w.log.name = w₀.log.name := by rw [hw.2.1]
  have hcount : w.log.retained = w₀.log.retained := by rw [hw.2.1]
  simp only [hname, hcount]
  have hlook : Triple (· = w) (look_at w₀.log.name w₀.log.retained) (fun _ => Unchanged w₀)
      fun _ => Stopped w₀ :=
    (look_at_spec (Unchanged.blind w₀) _ _).conseq (fun _ heq => heq ▸ hw) (fun _ _ h => h)
      fun _ _ h => ⟨_, h.kept, hsame⟩
  have hclosed : Blind fun w => Kept w₀ (files w₀.dir w₀.log) w ∧ w.dir = w₀.dir :=
    fun w faults h => ⟨Kept.blind w₀ _ w faults h.1, h.2⟩
  have hclose : Triple (Unchanged w₀) close
      (fun _ w => Kept w₀ (files w₀.dir w₀.log) w ∧ w.dir = w₀.dir) fun _ => Stopped w₀ := by
    refine Triple.modify fun w hw => ⟨?_, hw.1⟩
    have hkept := hw.kept
    exact ⟨hkept.name, hkept.max_bytes, hkept.retained, hkept.replaced, hkept.others, hkept.files⟩
  refine hlook.bind fun _ => hclose.bind fun _ =>
    ((file_at_spec hclosed _).conseq (fun _ h => h) (fun _ _ h => h)
      fun _ _ h => ⟨_, h.1, hsame⟩).bind fun found =>
    ((unlink_spec hretained found).conseq (fun _ h => h) (fun _ _ h => h)
      fun _ _ h => ⟨_, h, hsame⟩).bind fun _ => ?_
  have hlast : w₀.log.retained - 1 + 1 = w₀.log.retained := Nat.sub_add_cancel hretained
  have hshift := @shift_spec w₀ (survivors w₀) (w₀.log.retained - 1) (by omega)
  rw [hlast] at hshift
  refine (hshift.conseq (fun _ h => h) (fun _ _ h => h) fun _ _ h => ⟨_, h, hlost⟩).bind fun _ =>
    ((retire_spec hretained).conseq (fun _ h => h) (fun _ _ h => h)
      fun _ _ h => ⟨_, h, hlost⟩).bind fun _ =>
    (reopen_spec.conseq (fun _ h => h) (fun _ _ h => h) fun _ _ h => ?_).bind fun _ => ?_
  · rcases h with h | h
    · exact ⟨_, h, hlost⟩
    · exact ⟨_, h, hnew⟩
  · refine Triple.modify ?_
    rintro w ⟨hkept, hempty⟩
    exact ⟨⟨hkept.name, hkept.max_bytes, hkept.retained, hkept.replaced, hkept.others, hkept.files⟩,
      hempty, rfl, rfl⟩

/-! ## Writes -/

theorem when_stop_spec (c : Bool) (e : HostError) :
    Triple P (Prog.when c (Prog.stop e)) (fun _ w => c = false ∧ P w) fun _ => P := by
  cases c with
  | false => exact Triple.pure fun _ h => ⟨rfl, h⟩
  | true => exact Triple.stop fun _ h => h

/-- The active file, which ends with what is written. -/
structure Active (w₀ : World) (older : List Bytes) (active : Bytes) (w : World) : Prop where
  kept : Kept w₀ (older ++ [active]) w
  here : w.dir w₀.log.name = some active

theorem Active.blind (w₀ : World) (older : List Bytes) (active : Bytes) :
    Blind (Active w₀ older active) := fun w faults h => ⟨Kept.blind w₀ _ w faults h.kept, h.here⟩

theorem Active.write {w : World} {older : List Bytes} {active part : Bytes}
    (h : Active w₀ older active w) :
    Active w₀ older (active ++ part) { w with dir := append w.log.name part w.dir } := by
  have hdir : append w.log.name part w.dir =
      Function.update w.dir w₀.log.name (some (active ++ part)) := by
    rw [append, h.kept.name, h.here]
    rfl
  have hfiles := h.kept.files
  rw [files, h.here] at hfiles
  have holder := (List.append_inj' hfiles rfl).1
  rw [hdir]
  refine ⟨h.kept.update (.inl rfl) ?_, by simp⟩
  rw [files, Function.update_self, generations_update fun i _ => (generation_ne _ i).symm, holder]
  rfl

theorem append_spec {older : List Bytes} {active : Bytes} {w : World} (part : Bytes)
    (hname : w.log.name = w₀.log.name) :
    Triple (Active w₀ older active) (set_dir (append w.log.name part))
      (fun _ => Active w₀ older (active ++ part)) E := by
  refine Triple.modify fun w' h => ?_
  have hwrite := @Active.write w₀ w' older active part h
  rwa [h.kept.name, ← hname] at hwrite

theorem write_all_spec {older : List Bytes} {active line : Bytes} :
    Triple (Active w₀ older active) (write_all line)
      (fun _ => Active w₀ older (active ++ line))
      fun _ w => ∃ part, part <+: line ∧ Active w₀ older (active ++ part) w := by
  have hnone : ∀ w, Active w₀ older active w →
      ∃ part, part <+: line ∧ Active w₀ older (active ++ part) w :=
    fun w h => ⟨[], List.nil_prefix, by rwa [List.append_nil]⟩
  refine Triple.get_bind fun w hw => ?_
  refine ((when_stop_spec (!w.log.file) HostError.Unavailable).conseq (fun _ h => h)
    (fun _ _ h => h.2 ▸ hw) fun _ _ h => h ▸ hnone w hw).bind fun _ =>
    (next_fault_spec (Active.blind w₀ older active)).bind fun fault => ?_
  cases fault.error with
  | none => exact append_spec line hw.kept.name
  | some e =>
    refine (append_spec (line.take fault.written) hw.kept.name).bind fun _ => Triple.stop ?_
    exact fun _ h => ⟨_, List.take_prefix _ _, h⟩

theorem validate_active_spec : Triple (Unchanged w₀) validate_active
    (fun _ w => Unchanged w₀ w ∧
      ∃ active, w₀.dir w₀.log.name = some active ∧ active.length = w₀.log.size)
    fun _ => Unchanged w₀ := by
  refine Triple.get_bind fun w hw => ?_
  obtain ⟨hdir, hlog, hreplaced⟩ := hw
  refine ((when_stop_spec (!w.log.file) HostError.Unavailable).conseq (fun _ h => h)
    (fun _ _ h => ?_) fun _ _ h => ?_).bind fun _ =>
    (validate_metadata_spec (Unchanged.blind w₀)).bind fun _ =>
    ((file_at_spec (Unchanged.blind w₀) w.log.name).conseq (fun _ h => h) (fun _ _ h => h.1)
      fun _ _ h => h).bind fun named =>
    ((when_stop_spec (!named) HostError.Insecure).conseq (fun _ h => h) (fun _ _ h => h.2)
      fun _ _ h => h).bind fun _ =>
    (when_stop_spec _ HostError.Insecure).conseq (fun _ h => h) (fun _ w' h => ⟨h.2, ?_⟩)
      fun _ _ h => h
  · exact h.2 ▸ ⟨hdir, hlog, hreplaced⟩
  · exact h ▸ ⟨hdir, hlog, hreplaced⟩
  · have hsize : (w₀.dir w₀.log.name).map List.length = some w₀.log.size := by
      have := h.1
      rw [decide_eq_false_iff_not, not_not, hdir, hlog] at this
      exact this
    obtain ⟨active, hactive, hlength⟩ := Option.map_eq_some_iff.1 hsize
    exact ⟨active, hactive, hlength⟩

/-- The line is at the end of the active file, or alone in a new one. The active file is not too
long. -/
def Landed (w₀ : World) (line : Bytes) (w : World) : Prop :=
  ∃ older active, Active w₀ older (active ++ line) w ∧
    (active ++ line).length ≤ w₀.log.max_bytes ∧
    (files w₀.dir w₀.log = older ++ [active] ∨ older = survivors w₀ ∧ active = [])

/-- A part of the line may be at the end, and the oldest generation may be gone. -/
def Torn (w₀ : World) (line : Bytes) (w : World) : Prop :=
  ∃ fs kept part, Kept w₀ fs w ∧ MayLose w₀ kept ∧ part <+: line ∧
    fs.flatten = kept.flatten ++ part

theorem Stopped.torn {w : World} {line : Bytes} (h : Stopped w₀ w) : Torn w₀ line w := by
  obtain ⟨fs, hkept, hlose⟩ := h
  exact ⟨fs, fs, [], hkept, hlose, List.nil_prefix, (List.append_nil _).symm⟩

theorem Unchanged.stopped {w : World} (h : Unchanged w₀ w) : Stopped w₀ w :=
  ⟨_, h.kept, .inl rfl⟩

/-- The active file has room for the line. -/
def Room (w₀ : World) (line : Bytes) (w : World) : Prop :=
  ∃ older active, Active w₀ older active w ∧ active.length + line.length ≤ w₀.log.max_bytes ∧
    (files w₀.dir w₀.log = older ++ [active] ∨ older = survivors w₀ ∧ active = [])

theorem room_spec (line : Bytes) :
    Triple (Room w₀ line) (write_all line) (fun _ => Landed w₀ line) fun _ => Torn w₀ line := by
  rintro w ⟨older, active, hactive, hle, hcase⟩
  have hspec : Triple (Active w₀ older active) (write_all line) (fun _ => Landed w₀ line)
      fun _ => Torn w₀ line := by
    refine write_all_spec.conseq (fun _ h => h) (fun _ _ h => ?_) fun _ _ h => ?_
    · exact ⟨older, active, h, by simpa using hle, hcase⟩
    · obtain ⟨part, hpart, htorn⟩ := h
      refine ⟨_, older ++ [active], part, htorn.kept, ?_, hpart, by simp⟩
      rcases hcase with hfiles | ⟨rfl, rfl⟩
      · exact .inl (by rw [hfiles])
      · exact .inr (by simp)
  exact hspec w hactive

/-- Room is made by a rotation when there is none. -/
theorem make_room_spec (hretained : 1 ≤ w₀.log.retained)
    (hmax : w₀.log.max_bytes ≤ 1073741824) {line : Bytes}
    (hline : line.length ≤ w₀.log.max_bytes) :
    Triple (fun w => Unchanged w₀ w ∧
        ∃ active, w₀.dir w₀.log.name = some active ∧ active.length = w₀.log.size)
      (Prog.when (saturating_add w₀.log.size line.length > w₀.log.max_bytes) rotate)
      (fun _ => Room w₀ line) fun _ => Torn w₀ line := by
  by_cases hfull : saturating_add w₀.log.size line.length > w₀.log.max_bytes
  · rw [decide_eq_true hfull]
    refine (rotate_spec hretained).conseq (fun _ h => h.1) (fun _ w h => ?_) fun _ _ h => h.torn
    exact ⟨survivors w₀, [], ⟨h.1, h.2.1⟩, by simpa using hline, .inr ⟨rfl, rfl⟩⟩
  · rw [decide_eq_false hfull]
    refine Triple.pure fun w h => ?_
    obtain ⟨hsame, active, hactive, hsize⟩ := h
    have hfiles : files w₀.dir w₀.log =
        generations w₀.dir w₀.log.name w₀.log.retained ++ [active] := by
      rw [files, hactive]
      rfl
    refine ⟨_, active, ⟨hfiles ▸ hsame.kept, by rw [hsame.1, hactive]⟩, ?_, .inl hfiles⟩
    unfold saturating_add at hfull
    omega

theorem write_inner_spec (hretained : 1 ≤ w₀.log.retained)
    (hmax : w₀.log.max_bytes ≤ 1073741824) (line : Bytes) :
    Triple (Unchanged w₀) (write_inner line) (fun _ => Landed w₀ line) fun _ => Torn w₀ line := by
  have hstop : ∀ w, Unchanged w₀ w → Torn w₀ line w := fun w h => h.stopped.torn
  refine Triple.get_bind fun w hw => ?_
  have hlog := hw.2.1
  rw [hlog]
  refine Triple.conseq (?_ : Triple (Unchanged w₀) _ _ _) (fun _ h => h ▸ hw) (fun _ _ h => h)
    fun _ _ h => h
  refine ((when_stop_spec _ HostError.Unavailable).conseq (fun _ h => h) (fun _ _ h => h.2)
    fun _ w' h => hstop w' h).bind fun _ =>
    ((when_stop_spec _ HostError.Limit).conseq (fun _ h => h) (fun _ _ h => h)
      fun _ w' h => hstop w' h).bind fun _ => Triple.of_and fun hshort => ?_
  have hline : line.length ≤ w₀.log.max_bytes := by simpa using hshort
  refine ((validate_metadata_spec (Unchanged.blind w₀)).conseq (fun _ h => h) (fun _ _ h => h)
      fun _ w' h => hstop w' h).bind fun _ =>
    (validate_active_spec.conseq (fun _ h => h) (fun _ _ h => h)
      fun _ w' h => hstop w' h).bind fun _ =>
    (make_room_spec hretained hmax hline).bind fun _ =>
    (room_spec line).bind fun _ => Triple.modify ?_
  rintro w ⟨older, active, ⟨hkept, hhere⟩, hle, hcase⟩
  exact ⟨older, active, ⟨⟨hkept.name, hkept.max_bytes, hkept.retained, hkept.replaced,
    hkept.others, hkept.files⟩, hhere⟩, hle, hcase⟩

theorem write_ok {line : Bytes} {w : World} (hretained : 1 ≤ w₀.log.retained)
    (hmax : w₀.log.max_bytes ≤ 1073741824) (h : write line w₀ = (.ok (), w)) :
      Landed w₀ line w := by
  have hspec := write_inner_spec hretained hmax line w₀ ⟨rfl, rfl, rfl⟩
  unfold write at h
  cases hrun : write_inner line w₀ with
  | mk r w' =>
    rw [hrun] at h hspec
    cases r with
    | error e => cases h
    | ok u =>
      cases h
      exact hspec

theorem write_error {line : Bytes} {w : World} {e : HostError} (hretained : 1 ≤ w₀.log.retained)
    (hmax : w₀.log.max_bytes ≤ 1073741824) (h : write line w₀ = (.error e, w)) :
    Torn w₀ line w ∧ w.log.file = false := by
  have hspec := write_inner_spec hretained hmax line w₀ ⟨rfl, rfl, rfl⟩
  unfold write at h
  cases hrun : write_inner line w₀ with
  | mk r w' =>
    rw [hrun] at h hspec
    cases r with
    | ok u => cases h
    | error e' =>
      cases h
      obtain ⟨fs, kept, part, hkept, hrest⟩ := hspec
      exact ⟨⟨fs, kept, part, ⟨hkept.name, hkept.max_bytes, hkept.retained, hkept.replaced,
        hkept.others, hkept.files⟩, hrest⟩, rfl⟩

/-- A log that is closed does nothing. -/
theorem write_closed {w : World} (h : w.log.file = false) (line : Bytes) :
    write line w = (.error .Unavailable, w) := by
  obtain ⟨dir, faults, replaced, ⟨name, file, size, max_bytes, retained⟩⟩ := w
  obtain rfl : file = false := h
  rfl

end

/-! ## Runs -/

/-- Lines that were written, all of them without an error. -/
inductive Written : World → List Bytes → World → Prop
  | nil (w : World) : Written w [] w
  | snoc {w w' w'' : World} {lines : List Bytes} {line : Bytes} : Written w lines w' →
      write line w' = (.ok (), w'') → Written w (lines ++ [line]) w''

/-- All the files that there ever were: the old generations, the file that was active, with the
first lines behind its content, and one file for each group of later lines. -/
def history (older : List Bytes) (active : Bytes) (first : List Bytes) (more : List (List Bytes)) :
    List Bytes := older ++ (active ++ first.flatten) :: more.map List.flatten

theorem history_line (older : List Bytes) (active : Bytes) (first : List Bytes)
    (more : List (List Bytes)) (line : Bytes) : ∃ init last first' more',
      history older active first more = init ++ [last] ∧
      history older active first' more' = init ++ [last ++ line] ∧
      first' ++ more'.flatten = (first ++ more.flatten) ++ [line] ∧
      ((∀ group ∈ more, group ≠ []) → ∀ group ∈ more', group ≠ []) := by
  rcases List.eq_nil_or_concat more with rfl | ⟨done, group, rfl⟩
  · exact ⟨older, active ++ first.flatten, first ++ [line], [], rfl, by simp [history], by simp,
      fun h => h⟩
  · refine ⟨older ++ (active ++ first.flatten) :: done.map List.flatten, group.flatten, first,
      done ++ [group ++ [line]], ?_, ?_, ?_, ?_⟩
    · simp [history]
    · simp [history]
    · simp
    · intro h other hother
      rcases List.mem_append.1 hother with hother | hother
      · exact h other (by simp [hother])
      · simp [List.mem_singleton.1 hother]

theorem history_file (older : List Bytes) (active : Bytes) (first : List Bytes)
    (more : List (List Bytes)) (line : Bytes) :
    history older active first (more ++ [[line]]) = history older active first more ++ [line] := by
  simp [history]

theorem suffix_snoc {α : Type} {xs init : List α} {x last : α}
    (h : xs ++ [x] <:+ init ++ [last]) : xs <:+ init ∧ x = last := by
  obtain ⟨t, ht⟩ := h
  rw [← List.append_assoc] at ht
  obtain ⟨hinit, hlast⟩ := List.append_inj' ht rfl
  exact ⟨⟨t, hinit⟩, List.singleton_inj.1 hlast⟩

theorem survivors_suffix {w : World} (h : 1 ≤ w.log.retained) :
    survivors w <:+ files w.dir w.log := ⟨_, (files_eq h).symm⟩

/-- What holds after every run, of the directory and the log that it started with. -/
structure Holds (dir : Dir) (log : PrivateLog) (lines : List Bytes) (w : World) : Prop where
  name : w.log.name = log.name
  max_bytes : w.log.max_bytes = log.max_bytes
  retained : w.log.retained = log.retained
  replaced : w.replaced = false
  others : ∀ m, ¬ Owned w.log m → w.dir m = dir m
  files : ∃ first more, lines = first ++ more.flatten ∧ (∀ group ∈ more, group ≠ []) ∧
    files w.dir w.log <:+
      history (generations dir log.name log.retained) ((dir log.name).getD []) first more
  newest : ∀ line, lines.getLast? = some line → ∃ active, w.dir log.name = some active ∧
    line <:+ active ∧ active.length ≤ log.max_bytes

theorem Owned.of_eq {log log' : PrivateLog} (hname : log.name = log'.name)
    (hretained : log.retained = log'.retained) {m : Str} : Owned log m ↔ Owned log' m := by
  unfold Owned
  rw [hname, hretained]

theorem files_of_eq {log log' : PrivateLog} (hname : log.name = log'.name)
    (hretained : log.retained = log'.retained) (dir : Dir) : files dir log = files dir log' := by
  unfold PrivateLog.files
  rw [hname, hretained]

theorem Holds.step {dir : Dir} {log : PrivateLog} {lines : List Bytes} {line : Bytes}
    {w w' : World} (h : Holds dir log lines w) (hretained : 1 ≤ log.retained)
    (hmax : log.max_bytes ≤ 1073741824) (hwrite : write line w = (.ok (), w')) :
    Holds dir log (lines ++ [line]) w' := by
  have hone : 1 ≤ w.log.retained := h.retained ▸ hretained
  obtain ⟨older, active, ⟨hkept, hhere⟩, hlength, hcase⟩ :=
    write_ok hone (h.max_bytes ▸ hmax) hwrite
  obtain ⟨first, more, rfl, hmore, hsuffix⟩ := h.files
  have hfiles : PrivateLog.files w'.dir w'.log = older ++ [active ++ line] := by
    rw [← hkept.files]
    exact files_of_eq hkept.name hkept.retained w'.dir
  refine ⟨hkept.name.trans h.name, hkept.max_bytes.trans h.max_bytes,
    hkept.retained.trans h.retained, hkept.replaced.trans h.replaced, ?_, ?_, ?_⟩
  · intro m hm
    have hm' : ¬ Owned w.log m := fun howned => hm
      ((Owned.of_eq hkept.name hkept.retained).2 howned)
    exact (hkept.others m hm').trans (h.others m hm')
  · rw [hfiles]
    rcases hcase with hold | ⟨rfl, rfl⟩
    · obtain ⟨init, last, first', more', heq, heq', hlines, hgroups⟩ :=
        history_line (generations dir log.name log.retained) ((dir log.name).getD []) first
          more line
      rw [hold, heq] at hsuffix
      obtain ⟨⟨t, ht⟩, rfl⟩ := suffix_snoc hsuffix
      exact ⟨first', more', hlines.symm, hgroups hmore, t, by rw [heq', ← ht, List.append_assoc]⟩
    · refine ⟨first, more ++ [[line]], by simp, ?_, ?_⟩
      · intro group hgroup
        rcases List.mem_append.1 hgroup with hgroup | hgroup
        · exact hmore group hgroup
        · simp [List.mem_singleton.1 hgroup]
      obtain ⟨t, ht⟩ := (survivors_suffix hone).trans hsuffix
      exact ⟨t, by rw [history_file, ← ht, List.nil_append, List.append_assoc]⟩
  · intro last hlast
    rw [List.getLast?_concat, Option.some.injEq] at hlast
    rw [h.name] at hhere
    exact ⟨active ++ line, hhere, hlast ▸ List.suffix_append _ _, h.max_bytes ▸ hlength⟩

theorem Holds.run {dir : Dir} {log : PrivateLog} {lines : List Bytes} {w w' : World}
    (hretained : 1 ≤ log.retained) (hmax : log.max_bytes ≤ 1073741824)
    (h : Holds dir log [] w) (hrun : Written w lines w') : Holds dir log lines w' := by
  induction hrun with
  | nil => exact h
  | snoc _ hwrite ih => exact ih.step hretained hmax hwrite

/-- A log that was opened. -/
theorem open_log_ok {name : Str} {max_bytes retained : Nat} {dir : Dir} {faults : List Fault}
    {w : World} (h : open_log name max_bytes retained dir faults = .ok w) :
    1 ≤ retained ∧ max_bytes ≤ 1073741824 ∧
      Holds dir ⟨name, false, 0, max_bytes, retained⟩ [] w := by
  unfold open_log at h
  split at h
  · cases h
  rename_i hconfig
  refine ⟨by omega, by omega, ?_⟩
  have hspec : Triple (fun w => w.dir = dir ∧ w.log = ⟨name, false, 0, max_bytes, retained⟩ ∧
        w.replaced = false)
      (opening name)
      (fun _ => Holds dir ⟨name, false, 0, max_bytes, retained⟩ []) fun _ _ => True := by
    have hcreate := @create_spec
      (fun w => w.dir = dir ∧ w.log = ⟨name, false, 0, max_bytes, retained⟩ ∧ w.replaced = false)
      (fun w => w.dir = create name dir ∧ w.log = ⟨name, false, 0, max_bytes, retained⟩ ∧
        w.replaced = false) (fun _ _ h => h) name fun w h => ⟨by rw [h.1], h.2⟩
    refine ((validate_metadata_spec fun _ _ h => h).conseq (fun _ h => h) (fun _ _ h => h)
        fun _ _ _ => trivial).bind fun _ =>
      (hcreate.conseq (fun _ h => h) (fun _ _ h => h) fun _ _ _ => trivial).bind fun _ =>
      ((validate_metadata_spec fun _ _ h => h).conseq (fun _ h => h) (fun _ _ h => h)
        fun _ _ _ => trivial).bind fun _ => Triple.modify ?_
    rintro w ⟨hdir, hlog, hreplaced⟩
    refine ⟨by rw [hlog], by rw [hlog], by rw [hlog], hreplaced, ?_, ⟨[], [], rfl, by simp, ?_⟩, ?_⟩
    · intro m hm
      have hne : m ≠ name := fun heq => hm (.inl (by rw [hlog, heq]))
      rw [hdir]
      exact Function.update_of_ne hne _ _
    · have hfiles : PrivateLog.files (create name dir) ⟨name, true, 0, max_bytes, retained⟩ =
          history (generations dir name retained) ((dir name).getD []) [] [] := by
        rw [PrivateLog.files, create, Function.update_self,
          generations_update fun i _ => (generation_ne _ i).symm]
        simp [history]
      rw [hdir, hlog]
      exact ⟨[], hfiles⟩
    · intro line hline
      cases hline
  have hrun := hspec ⟨dir, faults, false, ⟨name, false, 0, max_bytes, retained⟩⟩ ⟨rfl, rfl, rfl⟩
  split at h
  · rename_i heq
    cases h
    rw [heq] at hrun
    exact hrun
  · cases h

/-- After every run, the files are the newest of all that there were: nothing is gone but whole
files, from the oldest on, and every line is in one file. The active file ends in the last line. A
write that succeeds puts its line behind the content of the active file, or into a new one, and then
the oldest generation is gone, and no other. A write that fails may leave a part of its own line,
and loses the oldest generation at most; the log does nothing any more. -/
theorem the_log_keeps_its_lines {name : Str} {max_bytes retained : Nat} {dir : Dir}
    {faults : List Fault} {opened w : World} {lines : List Bytes}
    (hopen : open_log name max_bytes retained dir faults = .ok opened)
    (hrun : Written opened lines w) :
    w.log.name = name ∧ w.log.retained = retained ∧
    (∃ first more, lines = first ++ more.flatten ∧ (∀ group ∈ more, group ≠ []) ∧
      files w.dir w.log <:+
        history (generations dir name retained) ((dir name).getD []) first more) ∧
    (files w.dir w.log).flatten <:+
      (generations dir name retained).flatten ++ (dir name).getD [] ++ lines.flatten ∧
    (∀ line, lines.getLast? = some line → ∃ active, w.dir name = some active ∧ line <:+ active ∧
      active.length ≤ max_bytes) ∧
    w.replaced = false ∧ (∀ m, ¬ Owned w.log m → w.dir m = dir m) ∧
    (∀ line landed, write line w = (.ok (), landed) → ∃ older active,
      files landed.dir w.log = older ++ [active ++ line] ∧
      landed.dir name = some (active ++ line) ∧
      (files w.dir w.log = older ++ [active] ∨ older = survivors w ∧ active = [])) ∧
    ∀ line e failed, write line w = (.error e, failed) →
      (∃ part, part <+: line ∧
        ((files failed.dir w.log).flatten = (files w.dir w.log).flatten ++ part ∨
          (files failed.dir w.log).flatten = (survivors w).flatten ++ part)) ∧
      failed.replaced = false ∧ (∀ m, ¬ Owned w.log m → failed.dir m = dir m) ∧
      ∀ later, write later failed = (.error .Unavailable, failed) := by
  obtain ⟨hretained, hmax, hopened⟩ := open_log_ok hopen
  have h := Holds.run hretained hmax hopened hrun
  obtain ⟨first, more, rfl, hmore, hsuffix⟩ := h.files
  refine ⟨h.name, h.retained, ⟨first, more, rfl, hmore, hsuffix⟩, ?_, h.newest, h.replaced,
    h.others,
    ?_, ?_⟩
  · obtain ⟨t, ht⟩ := hsuffix
    refine ⟨t.flatten, ?_⟩
    rw [← List.flatten_append, ht]
    simp [history, List.flatten_flatten]
  · intro line landed hwrite
    obtain ⟨older, active, ⟨hkept, hhere⟩, -, hcase⟩ :=
      write_ok (h.retained ▸ hretained) (h.max_bytes ▸ hmax) hwrite
    rw [h.name] at hhere
    exact ⟨older, active, hkept.files, hhere, hcase⟩
  · intro line e failed hfail
    obtain ⟨⟨fs, kept, part, hkept, hlose, hpart, hflatten⟩, hclosed⟩ :=
      write_error (h.retained ▸ hretained) (h.max_bytes ▸ hmax) hfail
    refine ⟨⟨part, hpart, ?_⟩, hkept.replaced.trans h.replaced,
      fun m hm => (hkept.others m hm).trans (h.others m hm), write_closed hclosed⟩
    rw [hkept.files, hflatten]
    rcases hlose with hall | hrest
    · exact .inl (by rw [hall])
    · exact .inr (by rw [hrest])

/-- A directory with the second generation of a log and no other file. -/
def gap : Dir := Function.update (fun _ => none) "log.2".toList (some [1])

def gap_opened : World :=
  ⟨create "log".toList gap, [], false, ⟨"log".toList, true, 0, 4, 2⟩⟩

def one_line : World := (write [5, 6, 7] gap_opened).2

def two_lines : World := (write [8, 9] one_line).2

theorem two_lines_written : Written gap_opened ([] ++ [[5, 6, 7]] ++ [[8, 9]]) two_lines := by
  have hfirst : write [5, 6, 7] gap_opened = (.ok (), one_line) := Prod.ext rfl rfl
  have hsecond : write [8, 9] one_line = (.ok (), two_lines) := Prod.ext rfl rfl
  exact .snoc (.snoc (.nil gap_opened) hfirst) hsecond

/-- The first line moves to the first generation, and the second generation is gone. -/
theorem two_lines_are_kept : open_log "log".toList 4 2 gap [] = .ok gap_opened ∧
    files gap_opened.dir gap_opened.log = [[1], []] ∧
    files two_lines.dir two_lines.log = [[5, 6, 7], [8, 9]] ∧
    (∃ active, two_lines.dir "log".toList = some active ∧ [8, 9] <:+ active ∧ active.length ≤ 4) ∧
    two_lines.replaced = false := by
  have hopen : open_log "log".toList 4 2 gap [] = .ok gap_opened := rfl
  obtain ⟨-, -, -, -, hnewest, hreplaced, -⟩ := the_log_keeps_its_lines hopen two_lines_written
  exact ⟨hopen, by decide, by decide, hnewest _ rfl, hreplaced⟩

end openwrt_mcp_host_platform.PrivateLog
