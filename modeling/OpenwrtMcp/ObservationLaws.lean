-- What the cache keeps to: whatever was issued of a device and is not revoked is the entry of its
-- object, at every moment and whoever takes the next step.
import OpenwrtMcp.DispatcherCalls

open json maps tasks text
open openwrt_mcp_core
open tasks.Fallible (attempt)

namespace openwrt_mcp_runtime

/-- What a program holds of the cache: the lock, with the entries as they are; a flag that it has
still to clear; the flags that it has cleared and made; and the entries that it has seen. -/
structure Keeper where
  lock : Option (BTreeMap ReviewedObject Observation)
  owed : Option Nat
  cleared : Set Nat
  made : Set Nat
  seen : Set (ReviewedObject × Observation)

/-- Nothing was observed. -/
def Blank (observation : Observation) : Prop :=
  observation.epoch = none ∧ ∃ reason, observation.value = .Unknown reason

namespace Keeper

def idle : Keeper := ⟨none, none, ∅, ∅, ∅⟩

/-- An observation that may be given out. -/
def Has (l : Keeper) (observation : Observation) : Prop :=
  Blank observation ∨ ∃ object, (object, observation) ∈ l.seen

/-- The lock is held, and nothing is owed. -/
def Holding (l : Keeper) : Prop := l.lock.isSome = true ∧ l.owed = none

/-- Nothing is held. -/
def AtRest (l : Keeper) : Prop := l.lock = none ∧ l.owed = none

def may (l : Keeper) : Call → Prop
  | .lock_entries => l.AtRest
  | .unlock_entries | .get_entry _ | .remove_entry _ => l.Holding
  | .insert_entry object entry => l.Holding ∧ (∀ m, l.lock = some m → m.get object = none) ∧
      entry.epoch.isSome = true ∧ entry.valid ∈ l.made
  | .clear_flag valid => l.owed = none ∨ l.owed = some valid
  | .set_issued observation => l.AtRest ∧ l.Has observation
  | .begins (.probe object _) => l.Holding ∧ ∀ m, l.lock = some m → m.get object = none
  | _ => l.owed = none

open Classical in
/-- An entry that is taken out has to be revoked next, unless it is already. -/
noncomputable def after (l : Keeper) : (c : Call) → Answer c → Keeper
  | .lock_entries, entries => { l with lock := some entries }
  | .unlock_entries, _ => { l with lock := none }
  | .get_entry object, entry => { l with seen := l.seen ∪ {e | e.1 = object ∧ some e.2 = entry} }
  | .remove_entry object, entry =>
    { l with
      lock := l.lock.map fun m => m.remove object
      owed := entry.bind fun e => if e.valid ∈ l.cleared then none else some e.valid }
  | .insert_entry object entry, _ =>
    { l with
      lock := l.lock.map fun m => m.insert object entry
      seen := insert (object, entry) l.seen }
  | .new_flag, valid => { l with made := insert valid l.made }
  | .clear_flag valid, _ => { l with owed := none, cleared := insert valid l.cleared }
  | _, _ => l

end Keeper

/-- The entries are the ones that were there when the lock was taken, but for what was done
since. -/
noncomputable def evidence : Contract Keeper Call Answer where
  may := Keeper.may
  knows l c a := match c, a with
    | .get_entry object, entry => ∀ m, l.lock = some m → entry = m.get object
    | .remove_entry object, entry => ∀ m, l.lock = some m → entry = m.get object
    | _, _ => True
  after := Keeper.after

/-! ## The parts of an observation -/

namespace Keeper

section
variable {l : Keeper} {observation : Observation} {α : Type}

/-- Calls of these parts leave the cache alone. -/
def parts_without_cache : List Part :=
  [.Sequence, .Readings, .Audit, .Permits, .Slot, .Device]

theorem without_cache {c : Call} (hc : c.In parts_without_cache) {l : Keeper} (h : l.owed = none) :
    l.may c ∧ ∀ a, l.after c a = l := by
  cases c with
  | begins call =>
    cases call with
    | probe object limits => cases hc
    | _ => exact ⟨h, fun _ => rfl⟩
  | returns call => exact ⟨h, fun _ => rfl⟩
  | _ => first | exact ⟨h, fun _ => rfl⟩ | cases hc

theorem without_cache_spec {t : Task Call Answer Nat α} {parts : List Part}
    (h : t.Calls (Call.In parts)) (hsub : parts ⊆ parts_without_cache) (howed : l.owed = none) :
    Safe evidence (fun l' _ => l' = l) (· = l) t l := by
  refine Safe.of_calls (calls_widen h hsub) ?_ rfl
  intro l' c hl hc
  subst hl
  obtain ⟨hmay, hafter⟩ := without_cache hc howed
  exact ⟨hmay, fun a _ => hafter a⟩

theorem Holding.of {l : Keeper} {m : BTreeMap ReviewedObject Observation}
    (hlock : l.lock = some m) (howed : l.owed = none) : l.Holding :=
  ⟨congrArg Option.isSome hlock, howed⟩

/-- An entry that is revoked already may be taken out. -/
theorem after_remove {m : BTreeMap ReviewedObject Observation} (object : ReviewedObject)
    (entry : Observation) (hlock : l.lock = some m) (hcleared : entry.valid ∈ l.cleared) :
    (l.after (.remove_entry object) (some entry)).lock = some (m.remove object) ∧
      (l.after (.remove_entry object) (some entry)).owed = none := by
  refine ⟨?_, if_pos hcleared⟩
  show l.lock.map _ = _
  rw [hlock]
  rfl

theorem retain_spec (entries : List (ReviewedObject × Observation))
    {m : BTreeMap ReviewedObject Observation} (hlock : l.lock = some m) (howed : l.owed = none)
    (hentries : ∀ e ∈ entries, m.get e.1 = some e.2) (hkeys : (entries.map Prod.fst).Nodup) :
    Safe evidence (fun l' _ => l'.Holding) Holding (CapabilityCache.retain entries).run l := by
  induction entries generalizing l m with
  | nil => exact .of hlock howed
  | cons e rest ih =>
    rw [List.forall_mem_cons] at hentries
    rw [List.map_cons, List.nodup_cons] at hkeys
    unfold CapabilityCache.retain
    refine Safe.and_then ((without_cache_spec calls_fresh (by decide) howed).conseq
      (fun _ _ hl => hl) ?_) ?_ ?_
    · rintro _ rfl
      exact .of hlock howed
    · rintro _ fresh rfl
      split
      · exact ih hlock howed hentries.2 hkeys.2
      refine Safe.then_ask (.inl howed) fun _ _ => ?_
      refine Safe.then_ask (.of hlock rfl) ?_
      intro entry hentry
      obtain rfl : entry = some e.2 := (hentry m hlock).trans hentries.1
      obtain ⟨hlock', howed'⟩ := after_remove e.1 e.2
        (l := evidence.after _ (.clear_flag e.2.valid) ())
        hlock (Set.mem_insert _ _)
      refine ih hlock' howed' ?_ hkeys.2
      intro x hx
      rw [BTreeMap.get_remove, if_neg ?_]
      · exact hentries.2 x hx
      · intro heq
        exact hkeys.1 (heq ▸ List.mem_map_of_mem hx)
    · rintro _ _ rfl
      exact .of hlock howed

/-- Whatever a part gives out is blank, or an entry that was seen. -/
def GivesOut (P : Keeper → Prop) (l : Keeper) (result : Except RuntimeError Observation) : Prop :=
  P l ∧ ∀ observation, result = .ok observation → l.Has observation

theorem cached_spec {object : ReviewedObject} {refresh : Bool} (h : l.Holding) :
    Safe evidence (fun l' r => l'.Holding ∧ ∀ entry, r = .ok (some entry) → l'.Has entry)
      Holding (CapabilityCache.cached object refresh).run l := by
  unfold CapabilityCache.cached
  split
  · exact ⟨h, fun _ hr => by cases hr⟩
  · refine Safe.fallible_ask_iff.2 ⟨h, fun entry hentry => ⟨h, ?_⟩⟩
    intro found hfound
    exact .inr ⟨object, .inr ⟨rfl, (Except.ok.inj hfound).symm⟩⟩

/-- The lock is held, and there is no entry of the object. -/
def Emptied (object : ReviewedObject) (l : Keeper) : Prop :=
  l.Holding ∧ ∀ m, l.lock = some m → m.get object = none

theorem emptied_remove {object : ReviewedObject} (l : Keeper) (entry : Option Observation) :
    ∀ m, (l.after (.remove_entry object) entry).lock = some m → m.get object = none := by
  intro m hm
  obtain ⟨m', -, rfl⟩ := Option.map_eq_some_iff.1 hm
  rw [BTreeMap.get_remove, if_pos rfl]

theorem forget_spec {object : ReviewedObject} (h : l.Holding) :
    Safe evidence (fun l' _ => Emptied object l') Holding
      (CapabilityCache.forget object).run l := by
  unfold CapabilityCache.forget
  refine Safe.then_ask h fun entry _ => ?_
  have hlock : (l.after (.remove_entry object) entry).lock.isSome = true := by
    show (l.lock.map _).isSome = true
    rw [Option.isSome_map]
    exact h.1
  split
  · rename_i previous _
    refine Safe.fallible_ask_iff.2 ⟨?_, fun _ _ => ⟨⟨hlock, rfl⟩, emptied_remove l (some previous)⟩⟩
    classical exact ite_eq_or_eq _ _ _
  · exact ⟨⟨hlock, rfl⟩, emptied_remove l _⟩

theorem unknown_spec {P : Keeper → Prop} (hP : ∀ l valid, P l → P (l.after .new_flag valid))
    (howed : l.owed = none) (h : P l) {reason : UnknownReason} {D : Keeper → Prop} :
    Safe evidence (GivesOut P) D (Observation.unknown reason).run l := by
  unfold Observation.unknown
  refine Safe.then_ask howed fun started _ => ?_
  refine Safe.then_ask howed fun valid _ => ?_
  refine ⟨hP l valid h, fun observation hobservation => .inl ?_⟩
  cases hobservation
  exact ⟨rfl, reason, rfl⟩

theorem probe_spec {limits : Limits} {object : ReviewedObject} (h : Emptied object l) :
    Safe evidence (GivesOut Holding) Holding
      (CapabilityCache.probe limits object).run l := by
  obtain ⟨hheld, hnone⟩ := h
  have howed := hheld.2
  unfold CapabilityCache.probe
  refine Safe.then_ask howed fun started _ => ?_
  refine Safe.then_ask howed fun previous _ => ?_
  refine Safe.then_ask ⟨hheld, hnone⟩ fun _ _ => ?_
  refine Safe.then_await howed hheld fun value _ => ?_
  cases value with
  | error e => exact ⟨hheld, fun _ hr => by cases hr⟩
  | ok value =>
    refine Safe.then_ask howed fun epoch _ => ?_
    split
    · exact unknown_spec (fun _ _ h => h) howed hheld
    split
    · exact unknown_spec (fun _ _ h => h) howed hheld
    refine Safe.then_ask howed fun now _ => ?_
    split
    · exact unknown_spec (fun _ _ h => h) howed hheld
    refine Safe.then_ask howed fun valid _ => ?_
    refine Safe.then_ask ⟨hheld, hnone, rfl, Set.mem_insert _ _⟩ fun _ _ => ?_
    refine ⟨⟨?_, howed⟩, fun observation hobservation => .inr ⟨object, ?_⟩⟩
    · exact (Option.isSome_map ..).trans hheld.1
    · cases hobservation
      exact Set.mem_insert _ _

theorem observe_locked_spec {limits : Limits} {object : ReviewedObject} {refresh : Bool}
    {entries : BTreeMap ReviewedObject Observation} (hlock : l.lock = some entries)
    (howed : l.owed = none) :
    Safe evidence (GivesOut Holding) Holding
      (CapabilityCache.observe_locked limits object refresh entries).run l := by
  unfold CapabilityCache.observe_locked
  refine Safe.and_then (retain_spec entries.entries hlock howed ?_ entries.nodup_keys) ?_ ?_
  · exact fun e he => BTreeMap.get_eq_some.2 he
  · intro l₁ _ h₁
    refine Safe.and_then (cached_spec h₁) ?_ ?_
    · intro l₂ entry h₂
      split
      · exact ⟨h₂.1, fun observation hr => h₂.2 _ (by rw [← Except.ok.inj hr])⟩
      · refine Safe.and_then (forget_spec h₂.1) ?_ ?_
        · exact fun l₃ _ h₃ => probe_spec h₃
        · exact fun l₃ e h₃ => ⟨h₃.1, fun _ hr => by cases hr⟩
    · exact fun l₂ e h₂ => ⟨h₂.1, fun _ hr => by cases hr⟩
  · exact fun l₁ e h₁ => ⟨h₁, fun _ hr => by cases hr⟩

theorem observe_spec {limits : Limits} {requirement : CapabilityRequirement} {refresh : Bool}
    (h : l.AtRest) :
    Safe evidence (GivesOut AtRest) AtRest
      (CapabilityCache.observe limits requirement refresh).run l := by
  unfold CapabilityCache.observe
  split
  · exact unknown_spec (fun _ _ h => h) h.2 h
  · refine Safe.then_await h h fun entries _ => ?_
    rw [Safe.fallible_holding_iff]
    refine (observe_locked_spec (l := evidence.after l .lock_entries entries) rfl h.2).conseq ?_ ?_
    · exact fun l' result hout => ⟨hout.1, fun _ _ => ⟨⟨rfl, hout.1.2⟩, hout.2⟩⟩
    · exact fun l' hheld => ⟨hheld, fun _ _ => ⟨rfl, hheld.2⟩⟩

/-! ## Requests -/

/-- Whoever holds nothing of the cache may do all that the cache is not asked for. -/
theorem at_rest_parts : Dispatcher.KeepsParts evidence AtRest
    [.Sequence, .Readings, .Audit, .Permits, .Flags, .Slot, .Device] := by
  intro c hc l h
  cases c with
  | begins call =>
    cases call with
    | probe object limits => cases hc
    | _ => exact ⟨h.2, fun _ _ => h⟩
  | clear_flag valid => exact ⟨.inl h.2, fun _ _ => ⟨h.1, rfl⟩⟩
  | returns call => exact ⟨h.2, fun _ _ => h⟩
  | _ => first | exact ⟨h.2, fun _ _ => h⟩ | cases hc

/-- What was given out is issued to the request, which goes on without the cache. -/
theorem issue_spec {p : Program α} (h : GivesOut AtRest l (.ok observation))
    (hp : Keeps evidence AtRest AtRest p.run) :
    Safe evidence (fun l' _ => l'.AtRest) AtRest
      (ask (.set_issued observation) >>= fun _ => p).run l :=
  Safe.then_ask ⟨h.1, h.2 _ rfl⟩ fun _ _ => hp _ h.1

theorem keeps_execute_observed {d : Dispatcher} {operation : Operation}
    {invocation : PreparedInvocation} {deadline : Nat} :
    Keeps evidence AtRest AtRest
      (d.execute_observed operation invocation observation deadline).run :=
  at_rest_parts.calls (fun _ hl => hl) Dispatcher.calls_execute_observed (by decide)

theorem keeps_status_observed {operation : Operation} {deadline : Nat} :
    Keeps evidence AtRest AtRest (Dispatcher.status_observed operation observation deadline).run :=
  at_rest_parts.calls (fun _ hl => hl) Dispatcher.calls_status_observed (by decide)

theorem sides (d : Dispatcher) : Dispatcher.Sides evidence AtRest AtRest d where
  dropped _ hl := hl
  release := at_rest_parts _ rfl
  common c hc := at_rest_parts c (hc.widen (by decide))
  record event := at_rest_parts.calls (fun _ hl => hl) Dispatcher.calls_record_audit (by decide)
  page _ _ _ _ _ := at_rest_parts.calls (fun _ hl => hl) Dispatcher.calls_invoke_page (by decide)
  execute _ _ _ _ h := Safe.and_then (observe_spec h)
    (fun _ _ hout => issue_spec hout keeps_execute_observed) fun _ _ hout => hout.1
  status _ _ _ _ h := Safe.and_then (observe_spec h)
    (fun _ _ hout => issue_spec hout keeps_status_observed) fun _ _ hout => hout.1

end

end Keeper

end openwrt_mcp_runtime
