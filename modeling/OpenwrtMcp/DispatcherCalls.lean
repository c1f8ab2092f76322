-- Which parts of what is shared each part of a request touches.
import OpenwrtMcp.Dispatcher

open json maps tasks text
open openwrt_mcp_core
open tasks.Fallible (attempt)

namespace openwrt_mcp_runtime

inductive Part
  | Sequence
  | Readings
  | Audit
  | Permits
  | Entries
  | Evidence
  | Flags
  | Issued
  | Slot
  | Probe
  | Device
  deriving DecidableEq

namespace Call

def part : Call → Part
  | .fetch_add => .Sequence
  | .now | .system_now | .capability_epoch | .load_flag _ | .issued => .Readings
  | .load_failed | .store_failed | .try_acquire_waiter | .release_waiter | .acquire_gate
  | .release_gate | .spawn_record _ | .join _ => .Audit
  | .try_acquire_permit | .release_permit => .Permits
  | .lock_entries | .unlock_entries | .get_entry _ | .remove_entry _ => .Entries
  | .insert_entry _ _ => .Evidence
  | .new_flag | .clear_flag _ => .Flags
  | .set_issued _ => .Issued
  | .try_lock_slot | .unlock_slot | .slot | .set_slot _ | .nonce => .Slot
  | .begins (.probe _ _) | .returns (.probe _ _) => .Probe
  | .begins _ | .returns _ => .Device

/-- The call touches one of these parts. -/
def In (parts : List Part) (c : Call) : Prop := parts.contains c.part = true

theorem In.widen {parts parts' : List Part} {c : Call} (h : c.In parts) (hsub : parts ⊆ parts') :
    c.In parts' := by
  unfold In at h ⊢
  rw [List.contains_iff_mem] at h ⊢
  exact hsub h

end Call

theorem calls_widen {α : Type} {t : Task Call Answer Nat α} {parts parts' : List Part}
    (h : t.Calls (Call.In parts)) (hsub : parts ⊆ parts') : t.Calls (Call.In parts') :=
  h.mono fun _ hc => hc.widen hsub

theorem calls_ask {P : Call → Prop} {c : Call} (h : P c) : (ask c).run.Calls P := .lift (.ask h)

theorem calls_await {P : Call → Prop} {c : Call} (h : P c) : (await c).run.Calls P :=
  .lift (.await h)

theorem calls_settled {P : Call → Prop} {α : Type} (result : Except RuntimeError α) :
    (settled result).run.Calls P := by
  cases result with
  | ok a => trivial
  | error e => trivial

/-! ## Observations -/

section
variable {observation : Observation} {requirement : CapabilityRequirement}

theorem calls_unknown {reason : UnknownReason} :
    (Observation.unknown reason).run.Calls (Call.In [.Readings, .Flags]) := by
  unfold Observation.unknown
  refine .fallible_bind (calls_ask rfl) fun _ => ?_
  exact .fallible_bind (calls_ask rfl) fun _ => trivial

theorem calls_fresh : observation.fresh.run.Calls (Call.In [.Readings]) := by
  unfold Observation.fresh
  split
  · trivial
  · refine .fallible_bind (calls_ask rfl) fun _ => ?_
    split
    · refine .fallible_bind (calls_ask rfl) fun _ => ?_
      split
      · exact .fallible_bind (calls_ask rfl) fun _ => trivial
      · trivial
    · trivial

theorem calls_revoke : observation.revoke.run.Calls (Call.In [.Flags]) := calls_ask rfl

theorem calls_verdict {action : Option PreparedAction} :
    (observation.verdict requirement action).run.Calls (Call.In [.Readings]) := by
  unfold Observation.verdict
  refine .fallible_bind calls_fresh fun _ => ?_
  split
  · trivial
  · trivial

theorem calls_status :
    (observation.status requirement).run.Calls (Call.In [.Readings]) := by
  unfold Observation.status Observation.remaining_ttl_ms
  refine .fallible_bind calls_verdict fun _ => ?_
  refine .fallible_bind (.fallible_bind calls_fresh fun _ => ?_) fun _ => trivial
  split
  · exact .fallible_bind (calls_ask rfl) fun _ => trivial
  · trivial

theorem calls_enforce_deadline {α : Type} {deadline : Nat} {issued : Option Observation}
    {result : Except RuntimeError α} :
    (enforce_deadline deadline issued result).run.Calls (Call.In [.Readings, .Flags]) := by
  unfold enforce_deadline
  refine .fallible_bind (calls_ask rfl) fun _ => ?_
  split
  · cases issued with
    | none => trivial
    | some observation =>
      exact .fallible_bind (calls_widen calls_revoke (by decide)) fun _ => trivial
  · exact calls_settled result

theorem calls_retain (entries : List (ReviewedObject × Observation)) :
    (CapabilityCache.retain entries).run.Calls (Call.In [.Readings, .Flags, .Entries]) := by
  induction entries with
  | nil => trivial
  | cons e rest ih =>
    unfold CapabilityCache.retain
    refine .fallible_bind (calls_widen calls_fresh (by decide)) fun _ => ?_
    split
    · exact ih
    · refine .fallible_bind (calls_widen calls_revoke (by decide)) fun _ => ?_
      exact .fallible_bind (calls_ask rfl) fun _ => ih

theorem calls_forget {object : ReviewedObject} :
    (CapabilityCache.forget object).run.Calls (Call.In [.Flags, .Entries]) := by
  unfold CapabilityCache.forget
  refine .fallible_bind (calls_ask rfl) fun previous => ?_
  split
  · exact calls_widen calls_revoke (by decide)
  · trivial

theorem calls_probe {limits : Limits} {object : ReviewedObject} :
    (CapabilityCache.probe limits object).run.Calls
      (Call.In [.Readings, .Flags, .Entries, .Evidence, .Probe]) := by
  unfold CapabilityCache.probe
  refine .fallible_bind (calls_ask rfl) fun _ => ?_
  refine .fallible_bind (calls_ask rfl) fun _ => ?_
  refine .fallible_bind (calls_ask rfl) fun _ => ?_
  refine .fallible_bind (calls_await rfl) fun _ => ?_
  refine .fallible_bind (calls_settled _) fun _ => ?_
  refine .fallible_bind (calls_ask rfl) fun epoch => ?_
  split
  · exact calls_widen calls_unknown (by decide)
  · split
    · exact calls_widen calls_unknown (by decide)
    · refine .fallible_bind (calls_ask rfl) fun _ => ?_
      split
      · exact calls_widen calls_unknown (by decide)
      · refine .fallible_bind (calls_ask rfl) fun _ => ?_
        exact .fallible_bind (calls_ask rfl) fun _ => trivial

theorem calls_cached {object : ReviewedObject} {refresh : Bool} :
    (CapabilityCache.cached object refresh).run.Calls (Call.In [.Entries]) := by
  unfold CapabilityCache.cached
  split
  · trivial
  · exact calls_ask rfl

theorem calls_observe_locked {limits : Limits} {object : ReviewedObject} {refresh : Bool}
    {entries : BTreeMap ReviewedObject Observation} :
    (CapabilityCache.observe_locked limits object refresh entries).run.Calls
      (Call.In [.Readings, .Flags, .Entries, .Evidence, .Probe]) := by
  unfold CapabilityCache.observe_locked
  refine .fallible_bind (calls_widen (calls_retain _) (by decide)) fun _ => ?_
  refine .fallible_bind (calls_widen calls_cached (by decide)) fun entry => ?_
  split
  · trivial
  · exact .fallible_bind (calls_widen calls_forget (by decide)) fun _ => calls_probe

theorem calls_observe {limits : Limits} {refresh : Bool} :
    (CapabilityCache.observe limits requirement refresh).run.Calls
      (Call.In [.Readings, .Flags, .Entries, .Evidence, .Probe]) := by
  unfold CapabilityCache.observe
  split
  · exact calls_widen calls_unknown (by decide)
  · refine .fallible_bind (calls_await rfl) fun _ => ?_
    refine .holding ?_ calls_observe_locked
    intro c hc
    cases List.mem_singleton.1 hc
    rfl

end

/-! ## The snapshot -/

namespace packages

theorem calls_preserve : preserve.run.Calls (Call.In [.Readings, .Slot]) := by
  unfold preserve
  refine .fallible_bind (calls_ask rfl) fun snapshot => ?_
  split
  · trivial
  · refine .fallible_bind (calls_ask rfl) fun _ => ?_
    split
    · trivial
    · refine .fallible_bind (calls_ask rfl) fun _ => ?_
      split
      · trivial
      · trivial

theorem calls_continued {operation cursor : Str} {profile : PackageProfile} :
    (continued operation profile cursor).run.Calls (Call.In [.Readings, .Slot]) := by
  unfold continued
  refine .fallible_bind (calls_settled _) fun _ => ?_
  refine .fallible_bind (calls_ask rfl) fun snapshot => ?_
  split
  · trivial
  · split
    · trivial
    · refine .fallible_bind (calls_ask rfl) fun _ => ?_
      split
      · trivial
      · refine .fallible_bind (calls_ask rfl) fun _ => ?_
        split
        · trivial
        · trivial

theorem calls_capture {limits : Limits} {profile : PackageProfile} :
    (capture limits profile).run.Calls (Call.In [.Device]) := by
  unfold capture
  split
  · refine .fallible_bind (calls_ask rfl) fun _ => ?_
    exact .fallible_bind (calls_await rfl) fun _ => calls_settled _
  · refine .fallible_bind (calls_ask rfl) fun _ => ?_
    exact .fallible_bind (calls_await rfl) fun _ => calls_settled _

theorem calls_draw {tokens : Bool} : (draw tokens).run.Calls (Call.In [.Slot]) := by
  unfold draw
  split
  · exact .fallible_bind (calls_await rfl) fun _ => calls_settled _
  · trivial

theorem calls_captured {limits : Limits} {tokens : Bool} {operation : Str}
    {profile : PackageProfile} {deadline : Nat} :
    (captured limits tokens operation profile deadline).run.Calls
      (Call.In [.Readings, .Slot, .Device]) := by
  unfold captured
  refine .fallible_bind (calls_ask rfl) fun _ => ?_
  refine .fallible_bind (calls_ask rfl) fun _ => ?_
  refine .fallible_bind (calls_widen calls_draw (by decide)) fun _ => ?_
  refine .fallible_bind (calls_ask rfl) fun _ => ?_
  split
  · trivial
  split
  · trivial
  refine .fallible_bind (calls_ask rfl) fun _ => ?_
  refine .fallible_bind (calls_widen calls_capture (by decide)) fun _ => ?_
  split
  · trivial
  refine .fallible_bind (calls_ask rfl) fun epoch => ?_
  split
  · trivial
  refine .fallible_bind (calls_ask rfl) fun _ => ?_
  split
  · trivial
  split
  · trivial
  refine .fallible_bind (calls_ask rfl) fun _ => ?_
  split
  · trivial
  · exact .fallible_bind (calls_ask rfl) fun _ => trivial

theorem calls_page {limits : Limits} {tokens : Bool} {operation : Str}
    {request : PackageProfile × Option Str} {deadline : Nat} :
    (page limits tokens operation request deadline).run.Calls
      (Call.In [.Readings, .Slot, .Device]) := by
  unfold page offset
  refine .fallible_bind ?_ fun _ => ?_
  · split
    · exact calls_widen calls_continued (by decide)
    · exact calls_captured
  · refine .fallible_bind (calls_ask rfl) fun snapshot => ?_
    split
    · trivial
    · exact calls_settled _

end packages

/-! ## The audit -/

namespace Dispatcher

variable {d : Dispatcher} {operation : Operation} {sequence started deadline : Nat}
  {kind : AuditKind} {event : AuditEvent} {α : Type}

theorem calls_record : (record event).run.Calls (Call.In [.Audit]) := by
  unfold record
  refine .fallible_bind (calls_await rfl) fun _ => ?_
  refine .fallible_bind (calls_ask rfl) fun _ => ?_
  split
  · exact .fallible_bind (calls_ask rfl) fun _ => trivial
  · refine .fallible_bind (calls_ask rfl) fun _ => ?_
    refine .fallible_bind (calls_await rfl) fun _ => ?_
    split
    · trivial
    · trivial

theorem calls_record_audit : (d.record_audit event).run.Calls (Call.In [.Readings, .Audit]) := by
  unfold record_audit
  refine .fallible_bind (calls_ask rfl) fun _ => ?_
  split
  · trivial
  refine .fallible_bind (calls_ask rfl) fun _ => ?_
  split
  · refine .holding (by simp [Call.In, Call.part]) ?_
    unfold record_waiting
    refine .fallible_bind (calls_ask rfl) fun _ => ?_
    refine .fallible_bind (.lift (.fallible_timeout (calls_widen calls_record (by decide)))) ?_
    intro result
    split
    · trivial
    · exact .fallible_bind (calls_ask rfl) fun _ => trivial
  · trivial

theorem calls_record_event {phase : AuditPhase} {name : Str} {outcome : AuditOutcome}
    {duration_ms : Option Nat} :
    (d.record_event sequence phase name outcome duration_ms kind).run.Calls
      (Call.In [.Readings, .Audit]) :=
  .fallible_bind (calls_ask rfl) fun _ => calls_record_audit

theorem calls_finish {result : Except RuntimeError α} :
    (d.finish sequence operation kind started result).run.Calls (Call.In [.Readings, .Audit]) := by
  unfold finish
  refine .fallible_bind (calls_ask rfl) fun _ => ?_
  refine .fallible_bind (.lift calls_record_event) fun recorded => ?_
  split
  · trivial
  · exact calls_settled _

/-! ## Invocations and status requests -/

theorem calls_invoke_page {request : PackageProfile × Option Str} :
    (d.invoke_page operation request sequence started deadline).run.Calls
      (Call.In [.Readings, .Audit, .Flags, .Slot, .Device]) := by
  unfold invoke_page
  refine .fallible_bind (calls_ask rfl) fun _ => ?_
  split
  · refine .fallible_bind (.guarding (by simp [packages.drop_lease, Call.In, Call.part]) ?_) ?_
    · refine .fallible_bind (.lift (.fallible_timeout (calls_widen packages.calls_page ?_))) ?_
      · decide
      intro result
      refine .fallible_bind (.lift (calls_widen calls_enforce_deadline (by decide))) fun _ => ?_
      refine .fallible_bind (calls_widen calls_finish (by decide)) fun _ => ?_
      exact .fallible_bind (calls_widen packages.calls_preserve (by decide)) fun _ => trivial
    · intro _
      exact .fallible_bind (calls_ask rfl) fun _ => trivial
  · exact calls_widen calls_finish (by decide)

theorem calls_execute_observed {invocation : PreparedInvocation} {observation : Observation} :
    (d.execute_observed operation invocation observation deadline).run.Calls
      (Call.In [.Readings, .Flags, .Device]) := by
  unfold execute_observed
  refine .fallible_bind (calls_widen calls_enforce_deadline (by decide)) fun _ => ?_
  refine .fallible_bind (calls_widen calls_verdict (by decide)) fun verdict => ?_
  split
  · refine .fallible_bind (calls_widen calls_enforce_deadline (by decide)) fun _ => ?_
    refine .fallible_bind (calls_ask rfl) fun _ => ?_
    refine .fallible_bind (calls_await rfl) fun _ => ?_
    refine .fallible_bind (calls_widen calls_enforce_deadline (by decide)) fun _ => ?_
    exact calls_widen calls_enforce_deadline (by decide)
  · trivial
  · trivial

theorem calls_execute {invocation : PreparedInvocation} :
    (d.execute operation invocation deadline).run.Calls
      (Call.In [.Readings, .Flags, .Entries, .Evidence, .Issued, .Probe, .Device]) := by
  unfold execute
  refine .fallible_bind (calls_widen calls_observe (by decide)) fun _ => ?_
  refine .fallible_bind (calls_ask rfl) fun _ => ?_
  exact calls_widen calls_execute_observed (by decide)

theorem calls_status_observed {observation : Observation} :
    (status_observed operation observation deadline).run.Calls
      (Call.In [.Readings, .Flags]) := by
  unfold status_observed
  refine .fallible_bind (calls_widen calls_enforce_deadline (by decide)) fun _ => ?_
  refine .fallible_bind (calls_widen calls_status (by decide)) fun _ => ?_
  exact calls_widen calls_enforce_deadline (by decide)

theorem calls_observed_status {refresh : Bool} :
    (d.observed_status operation refresh deadline).run.Calls
      (Call.In [.Readings, .Flags, .Entries, .Evidence, .Issued, .Probe, .Device]) := by
  unfold observed_status
  refine .fallible_bind (calls_widen calls_observe (by decide)) fun _ => ?_
  refine .fallible_bind (calls_ask rfl) fun _ => ?_
  exact calls_widen calls_status_observed (by decide)

end Dispatcher

/-- An operation that is listed is authorized, with nothing recorded. -/
theorem Dispatcher.authorize_available {d : Dispatcher} {operation : Operation} {sequence : Nat}
    {kind : AuditKind} (h : operation ∈ d.available_operations)
    (hget : d.catalog.get operation.name = some operation) :
    d.authorize operation.name sequence kind = pure operation := by
  obtain ⟨-, hauthorized⟩ := List.mem_filter.1 h
  simp only [authorize, hget, of_decide_eq_true hauthorized]

/-! ## What a request keeps -/

namespace Dispatcher

variable {L : Type} {C : Contract L Call Answer} {I D : L → Prop} {d : Dispatcher}
  {operation : Operation} {sequence started deadline : Nat} {kind : AuditKind} {α : Type}

theorem keeps_settled {result : Except RuntimeError α} : Keeps C I D (settled result).run := by
  cases result with
  | ok a => exact .pure
  | error e => exact .throw

/-- Calls of these parts keep it. -/
def KeepsParts (C : Contract L Call Answer) (I : L → Prop) (parts : List Part) : Prop :=
  ∀ c : Call, c.In parts → Keeping C I c

theorem KeepsParts.calls {parts parts' : List Part} (h : KeepsParts C I parts)
    {t : Task Call Answer Nat α} (hD : ∀ l, I l → D l) (ht : t.Calls (Call.In parts'))
    (hsub : parts' ⊆ parts) : Keeps C I D t :=
  .of_calls hD (ht.mono fun c hc => h c (hc.widen hsub))

/-- The parts of every request but for those that are about the audit, the cache, the slot or the
device. -/
def common_parts : List Part := [.Sequence, .Readings, .Permits, .Flags]

/-- What the parts of a request have to keep, and what has to hold when it is dropped. -/
structure Sides (C : Contract L Call Answer) (I D : L → Prop) (d : Dispatcher) : Prop where
  dropped : ∀ l, I l → D l
  release : Keeping C D .release_permit
  common : KeepsParts C I common_parts
  record : ∀ event, Keeps C I D (d.record_audit event).run
  page : ∀ operation request sequence started deadline,
    Keeps C I D (d.invoke_page operation request sequence started deadline).run
  execute : ∀ operation invocation deadline,
    Keeps C I I (d.execute operation invocation deadline).run
  status : ∀ operation refresh deadline,
    Keeps C I I (d.observed_status operation refresh deadline).run

theorem keeps_record_event (hcommon : KeepsParts C I common_parts)
    (hrecord : ∀ event, Keeps C I D (d.record_audit event).run) {phase : AuditPhase} {name : Str}
    {outcome : AuditOutcome} {duration_ms : Option Nat} :
    Keeps C I D (d.record_event sequence phase name outcome duration_ms kind).run :=
  .and_then (.ask (hcommon _ rfl)) fun _ => hrecord _

theorem keeps_finish (hcommon : KeepsParts C I common_parts)
    (hrecord : ∀ event, Keeps C I D (d.record_audit event).run) {result : Except RuntimeError α} :
    Keeps C I D (d.finish sequence operation kind started result).run := by
  unfold finish
  refine .and_then (.ask (hcommon _ rfl)) fun _ => ?_
  refine .and_then (.attempt (keeps_record_event hcommon hrecord)) fun recorded => ?_
  split
  · exact .throw
  · exact keeps_settled

theorem drop_lease_slot {c : Call} (hc : c ∈ packages.drop_lease) : c.In [.Slot] := by
  simp only [packages.drop_lease, List.mem_cons, List.not_mem_nil, or_false] at hc
  rcases hc with rfl | rfl
  · rfl
  · rfl

/-- A page keeps whatever the slot and the device do not touch. -/
theorem keeps_invoke_page (hD : ∀ l, I l → D l) (hcommon : KeepsParts C I common_parts)
    (hslot : KeepsParts C I [.Readings, .Slot, .Device]) (hdrop : KeepsParts C D [.Slot])
    (hrecord : ∀ event, Keeps C I D (d.record_audit event).run)
    {request : PackageProfile × Option Str} :
    Keeps C I D (d.invoke_page operation request sequence started deadline).run := by
  unfold invoke_page
  refine .and_then (.ask (hslot _ rfl)) fun _ => ?_
  split
  · refine .and_then (.guarding ?_ ?_ ?_) fun _ => .and_then (.ask (hslot _ rfl)) fun _ => .pure
    · exact fun c hc => hslot c ((drop_lease_slot hc).widen (by decide))
    · exact fun c hc => hdrop c (drop_lease_slot hc)
    · refine .and_then (.attempt (.timeout hD
        (hslot.calls (fun _ hl => hl) packages.calls_page (by decide)))) ?_
      intro result
      refine .and_then (.attempt (hcommon.calls hD calls_enforce_deadline (by decide))) fun _ => ?_
      refine .and_then (keeps_finish hcommon hrecord) fun _ => ?_
      exact .and_then (hslot.calls hD packages.calls_preserve (by decide)) fun _ => .pure
  · exact keeps_finish hcommon hrecord

namespace Sides

variable (h : Sides C I D d)
include h

theorem finish {result : Except RuntimeError α} :
    Keeps C I D (d.finish sequence operation kind started result).run :=
  keeps_finish h.common h.record

theorem reject {name : Str} {outcome : AuditOutcome} :
    Keeps C I D (d.reject sequence name outcome kind).run :=
  keeps_record_event h.common h.record

theorem authorize {name : Str} : Keeps C I D (d.authorize name sequence kind).run := by
  unfold Dispatcher.authorize
  split
  · exact .and_then h.reject fun _ => .throw
  · split
    · exact .and_then h.reject fun _ => .throw
    · exact .pure

theorem release_permit : ∀ c ∈ [Call.release_permit], Keeping C I c := by
  intro c hc
  cases List.mem_singleton.1 hc
  exact h.common _ rfl

theorem drop_permit : ∀ c ∈ [Call.release_permit], Keeping C D c := by
  intro c hc
  cases List.mem_singleton.1 hc
  exact h.release

theorem admit_operation : Keeps C I D (d.admit_operation operation sequence kind).run := by
  unfold Dispatcher.admit_operation
  refine .and_then (.ask (h.common _ rfl)) fun _ => ?_
  split
  · exact .guarding h.release_permit h.drop_permit (keeps_record_event h.common h.record)
  · exact .and_then h.reject fun _ => .throw

theorem within {p : Program α} (hp : Keeps C I I p.run) :
    Keeps C I D (d.within operation kind sequence started deadline p).run := by
  unfold Dispatcher.within
  refine .and_then (.attempt (.timeout h.dropped hp)) fun _ => ?_
  refine .and_then (.ask (h.common _ rfl)) fun _ => ?_
  refine .and_then (.attempt (h.common.calls h.dropped calls_enforce_deadline (by decide)))
    fun _ => ?_
  exact h.finish

theorem admitted_invocation {invocation : PreparedInvocation} :
    Keeps C I D (d.admitted_invocation operation invocation sequence).run := by
  unfold Dispatcher.admitted_invocation
  refine .and_then (.ask (h.common _ rfl)) fun _ => ?_
  refine .and_then (.ask (h.common _ rfl)) fun _ => ?_
  split
  · exact h.page _ _ _ _ _
  · exact h.within (h.execute _ _ _)

theorem invoke {name : Str} {arguments : Value} : Keeps C I D (d.invoke name arguments).run := by
  unfold Dispatcher.invoke
  refine .and_then (.ask (h.common _ rfl)) fun _ => ?_
  refine .and_then h.authorize fun operation => ?_
  split
  · exact .and_then h.reject fun _ => .throw
  · exact .and_then h.admit_operation fun _ => .holding h.release_permit h.drop_permit
      h.admitted_invocation

theorem admitted_status {refresh : Bool} :
    Keeps C I D (d.admitted_status operation refresh sequence).run := by
  unfold Dispatcher.admitted_status
  refine .and_then (.ask (h.common _ rfl)) fun _ => ?_
  split
  · exact h.finish
  · exact .and_then (.ask (h.common _ rfl)) fun _ => h.within (h.status _ _ _)

theorem capability_status {arguments : Value} :
    Keeps C I D (d.capability_status arguments).run := by
  have hunnamed : ∀ sequence, Keeps C I D (d.unnamed sequence).run :=
    fun sequence => .and_then h.reject fun _ => .throw
  unfold Dispatcher.capability_status
  refine .and_then (.ask (h.common _ rfl)) fun _ => ?_
  split
  · exact hunnamed _
  split
  · exact hunnamed _
  refine .and_then h.authorize fun operation => ?_
  split
  · exact .and_then h.admit_operation fun _ => .holding h.release_permit h.drop_permit
      h.admitted_status
  · exact .and_then h.reject fun _ => .throw

theorem program (r : Request) : Keeps C I D (d.program r) := by
  cases r with
  | invoke name arguments => exact .and_then h.invoke fun _ => .pure
  | capability_status arguments => exact .and_then h.capability_status fun _ => .pure

end Sides

end Dispatcher

end openwrt_mcp_runtime
