-- The limit on the bytes of a result. The evaluator is compared with the same evaluator with no
-- such limit: it stops exactly when the text of the result is too long.
import OpenwrtMcp.Metered
import OpenwrtMcp.ProjectionResults

open json programs text

namespace openwrt_mcp_core.projection

open RecordCheck RecordShape

/-- The limited program does what the other does, or stops with `OutputLimit` when that one ends
with too many bytes. -/
abbrev Tracks {α : Type} (x y : Charge α) : Prop :=
  Metered Budget.bytes MAX_NORMALIZED_BYTES CoreError.OutputLimit x y

/-! ## The budget -/

theorem allows_normalized {total : Nat} :
    ByteLimit.normalized.allows total = true ↔ total ≤ MAX_NORMALIZED_BYTES := by
  unfold ByteLimit.allows MAX_NORMALIZED_BYTES
  rw [Bool.and_eq_true, decide_eq_true_eq, decide_eq_true_eq]
  omega

theorem budget.bytes_tracks (count : Nat) :
    Tracks (budget.bytes .normalized count) (budget.bytes .removed count) where
  run b hb := by
    have hremoved : budget.bytes .removed count b =
      (.ok (), { b with bytes := b.bytes + count }) := rfl
    by_cases hle : b.bytes + count ≤ MAX_NORMALIZED_BYTES
    · left
      rw [hremoved, budget.bytes, if_pos (allows_normalized.2 hle)]
      refine ⟨rfl, fun a b' h => ?_⟩
      cases h
      exact hle
    · right
      rw [hremoved, budget.bytes, if_neg (mt allows_normalized.1 hle)]
      refine ⟨rfl, fun a b' h => ?_⟩
      cases h
      exact Nat.lt_of_not_le hle
  grows b a b' h := by
    cases h
    exact Nat.le_add_right _ _

theorem budget.scan_tracks (count max : Nat) :
    Tracks (budget.scan count max) (budget.scan count max) :=
  Metered.same fun _ _ _ h => (budget.scan_spec h).2.bytes

theorem budget.emit_tracks : Tracks budget.emit budget.emit :=
  Metered.same fun _ _ _ h => (budget.emit_spec h).bytes

theorem byte_cost_pos (byte : UInt8) : 1 ≤ byte_cost byte := by
  unfold byte_cost
  split
  · decide
  · split <;> decide

theorem count_text_removed (value : List UInt8) (count : Nat) :
    count_text .removed value count = some (count + (value.map byte_cost).sum) := by
  cases h : count_text .removed value count with
  | some total => rw [count_text_spec h]
  | none =>
    induction value generalizing count with
    | nil => cases h
    | cons byte rest ih => simpa using ih _ h

theorem count_text_normalized (value : List UInt8) {count : Nat}
    (h : count + (value.map byte_cost).sum ≤ MAX_NORMALIZED_BYTES) :
    count_text .normalized value count = some (count + (value.map byte_cost).sum) := by
  induction value generalizing count with
  | nil => rfl
  | cons byte rest ih =>
    rw [List.map_cons, List.sum_cons, ← Nat.add_assoc] at h ⊢
    unfold count_text
    rw [escaped_bytes_eq, if_pos (allows_normalized.2 (Nat.le_of_add_right_le h)), ih h]

/-- A count that is not refused is within the limit. -/
theorem count_text_le {value : List UInt8} {count total : Nat}
    (hcount : count ≤ MAX_NORMALIZED_BYTES)
    (h : count_text .normalized value count = some total) : total ≤ MAX_NORMALIZED_BYTES := by
  induction value generalizing count with
  | nil =>
    cases h
    exact hcount
  | cons byte rest ih =>
    unfold count_text at h
    split at h
    · rename_i hallows
      exact ih (allows_normalized.1 hallows) h
    · cases h

theorem len_le_text_cost (value : Str) : len value ≤ text_cost value := by
  have hsum : ∀ l : List UInt8, l.length ≤ (l.map byte_cost).sum := by
    intro l
    induction l with
    | nil => simp
    | cons byte rest ih =>
      have := byte_cost_pos byte
      rw [List.length_cons, List.map_cons, List.sum_cons]
      omega
  have := hsum (bytes value)
  unfold len text_cost
  omega

theorem text_bytes_normalized (value : Str) : text_bytes .normalized value =
    if text_cost value ≤ MAX_NORMALIZED_BYTES then some (text_cost value) else none := by
  by_cases hle : text_cost value ≤ MAX_NORMALIZED_BYTES
  · have hlen := Nat.le_trans (len_le_text_cost value) hle
    rw [if_pos hle, text_bytes, if_pos (allows_normalized.2 hlen), count_text_normalized _ hle]
    rfl
  · rw [if_neg hle]
    cases h : text_bytes .normalized value with
    | none => rfl
    | some count =>
      rw [← text_bytes_spec h] at hle
      unfold text_bytes at h
      split at h
      · exact absurd (count_text_le (by decide) h) hle
      · cases h

theorem budget.text_tracks (value : Str) :
    Tracks (budget.text .normalized value) (budget.text .removed value) := by
  have hremoved : text_bytes .removed value = some (text_cost value) := by
    have hallows : ByteLimit.removed.allows (len value) = true := rfl
    rw [text_bytes, if_pos hallows, count_text_removed]
    rfl
  unfold budget.text
  rw [hremoved, text_bytes_normalized]
  split
  · exact budget.bytes_tracks _
  · -- the text alone is past the limit
    rename_i hlong
    refine ⟨fun b _ => .inr ⟨rfl, fun a b' h => ?_⟩, (budget.bytes_tracks _).grows⟩
    cases h
    show MAX_NORMALIZED_BYTES < b.bytes + text_cost value
    omega

theorem budget.key_tracks (value : Str) (previous : Bool) :
    Tracks (budget.key .normalized value previous) (budget.key .removed value previous) :=
  (budget.text_tracks value).bind fun _ => budget.bytes_tracks _

/-! ## Records -/

theorem Scalar.to_value_tracks (scalar : Scalar) :
    Tracks (scalar.to_value .normalized) (scalar.to_value .removed) := by
  refine Metered.bind ?_ fun _ => Metered.pure _
  cases scalar with
  | Boolean value => exact budget.bytes_tracks _
  | Text value => exact budget.text_tracks value
  | Integer value => exact budget.bytes_tracks _
  | Counter value => exact budget.text_tracks _

theorem emit_field_tracks (emit : Bool) (result : Map) (name : Str) (scalar : Scalar) :
    Tracks (emit_field .normalized emit result name scalar)
      (emit_field .removed emit result name scalar) := by
  refine Metered.ite ?_ (Metered.pure _)
  refine (budget.key_tracks name _).bind fun _ => ?_
  exact (Scalar.to_value_tracks scalar).bind fun _ => Metered.pure _

theorem key_field_tracks (key : Option (TextIdentity × Str)) (emit : Bool) :
    Tracks (key_field .normalized key emit) (key_field .removed key emit) := by
  cases key with
  | none => exact Metered.pure _
  | some key => exact Metered.ite (Metered.stop _) (emit_field_tracks _ _ _ _)

theorem scalar_fields_tracks (source : Value) (emit : Bool) (fields : List ScalarField)
    (result : Map) :
    Tracks (scalar_fields .normalized source emit fields result)
      (scalar_fields .removed source emit fields result) := by
  induction fields generalizing result with
  | nil => exact Metered.pure _
  | cons field rest ih =>
    refine Metered.lift fun found _ => ?_
    cases found with
    | none => exact Metered.ite (Metered.stop _) (ih _)
    | some value =>
      refine Metered.lift fun scalar _ => ?_
      exact (emit_field_tracks _ _ _ _).bind fun result => ih result

theorem record_fields_tracks (fields : List ScalarField) (source : Value)
    (key : Option (TextIdentity × Str)) (emit : Bool) :
    Tracks (record_fields .normalized fields source key emit)
      (record_fields .removed fields source key emit) := by
  refine Metered.ite (Metered.stop _) ?_
  refine (Metered.when (budget.bytes_tracks 2)).bind fun _ => ?_
  exact (key_field_tracks key emit).bind fun result => scalar_fields_tracks _ _ _ result

/-- The limit acts alike on all the records of a kind. -/
class MeteredRecord (R : Type) [RecordShape R] : Prop where
  project_record_tracks : ∀ (record : R) (source : Value) (key : Option (TextIdentity × Str))
    (emit : Bool), Tracks (project_record .normalized record source key emit)
      (project_record .removed record source key emit)

instance : MeteredRecord LeafRecord where
  project_record_tracks record source key emit :=
    (record_fields_tracks record.fields source key emit).bind fun _ => Metered.pure _

/-! ## Collections -/

theorem text_values_tracks (max_bytes : Nat) (emit : Bool) (items projected : List Value) :
    Tracks (text_values .normalized max_bytes emit items projected)
      (text_values .removed max_bytes emit items projected) := by
  induction items generalizing projected with
  | nil => exact Metered.pure _
  | cons value rest ih =>
    refine Metered.lift fun scalar _ => ?_
    refine Metered.bind ?_ fun projected => ih projected
    refine Metered.ite ?_ (Metered.pure _)
    refine budget.emit_tracks.bind fun _ => ?_
    refine (budget.bytes_tracks _).bind fun _ => ?_
    exact (Scalar.to_value_tracks scalar).bind fun _ => Metered.pure _

theorem project_text_option_tracks (source : Value) (max_items max_bytes : Nat) (emit : Bool) :
    Tracks (project_text_option .normalized source max_items max_bytes emit)
      (project_text_option .removed source max_items max_bytes emit) := by
  refine Metered.ok_or fun found _ => ?_
  refine (budget.scan_tracks _ _).bind fun _ => ?_
  refine Metered.bind (Metered.when ?_) fun _ => ?_
  · refine (budget.bytes_tracks 2).bind fun _ => ?_
    refine (budget.key_tracks _ _).bind fun _ => ?_
    refine (budget.text_tracks _).bind fun _ => ?_
    exact (budget.key_tracks _ _).bind fun _ => budget.bytes_tracks 2
  · exact (text_values_tracks max_bytes emit found.2 []).bind fun _ => Metered.pure _

section
variable {R : Type} [RecordShape R] [MeteredRecord R]

open MeteredRecord

theorem row_array_tracks (record : R) (emit : Bool) (items : List Value) (acc : Rows) :
    Tracks (row_array .normalized record emit items acc)
      (row_array .removed record emit items acc) := by
  induction items generalizing acc with
  | nil => exact Metered.pure _
  | cons value rest ih =>
    refine Metered.bind (Metered.when ?_) fun _ => ?_
    · exact budget.emit_tracks.bind fun _ => budget.bytes_tracks _
    · exact (project_record_tracks record value none emit).bind fun _ => ih _

theorem identified_row_tracks (record : R) (selector : Option Str) (emit : Bool) (identity : Str)
    (key : Option (TextIdentity × Str)) (value : Value) (acc : Rows) :
    Tracks (identified_row .normalized record selector emit identity key value acc)
      (identified_row .removed record selector emit identity key value acc) := by
  refine Metered.bind (Metered.when ?_) fun _ => ?_
  · exact budget.emit_tracks.bind fun _ => Metered.when (budget.bytes_tracks _)
  · exact (project_record_tracks record value key _).bind fun _ => Metered.pure _

theorem object_array_tracks (record : R) (selector : Option Str) (emit : Bool) (source : Str)
    (max : Nat) (items : List Value) (identities : List Str) (acc : Rows) :
    Tracks (object_array .normalized record selector emit source max items identities acc)
      (object_array .removed record selector emit source max items identities acc) := by
  induction items generalizing identities acc with
  | nil => exact Metered.pure _
  | cons value rest ih =>
    refine Metered.lift fun found _ => ?_
    refine Metered.ok_or fun identity _ => ?_
    refine Metered.ite (Metered.stop _) ?_
    exact (identified_row_tracks record selector emit identity none value acc).bind fun _ => ih _ _

theorem object_entries_tracks (record : R) (selector : Option Str) (emit : Bool)
    (key : TextIdentity) (entries : Map) (acc : Rows) :
    Tracks (object_entries .normalized record selector emit key entries acc)
      (object_entries .removed record selector emit key entries acc) := by
  induction entries generalizing acc with
  | nil => exact Metered.pure _
  | cons entry rest ih =>
    refine Metered.ite (Metered.stop _) ?_
    exact (identified_row_tracks record selector emit entry.1 (some (key, entry.1)) entry.2
      acc).bind
      fun _ => ih _

theorem scalar_array_tracks (name : Str) (kind : ScalarKind) (unique emit : Bool)
    (items : List Value) (identities : List Scalar) (acc : Rows) :
    Tracks (scalar_array .normalized name kind unique emit items identities acc)
      (scalar_array .removed name kind unique emit items identities acc) := by
  induction items generalizing identities acc with
  | nil => exact Metered.pure _
  | cons value rest ih =>
    refine Metered.lift fun scalar _ => ?_
    refine Metered.ite (Metered.stop _) ?_
    refine Metered.bind ?_ fun _ => Metered.ite (Metered.stop _) (ih _ _)
    refine Metered.ite ?_ (Metered.pure _)
    refine budget.emit_tracks.bind fun _ => ?_
    refine (budget.bytes_tracks _).bind fun _ => ?_
    refine (budget.key_tracks _ _).bind fun _ => ?_
    exact (Scalar.to_value_tracks scalar).bind fun _ => Metered.pure _

theorem Collection.project_rows_tracks (c : Collection R) (source : Value) (selector : Option Str)
    (emit : Bool) :
    Tracks (c.project_rows .normalized source selector emit)
      (c.project_rows .removed source selector emit) := by
  cases c with
  | TextOption pointer max_items max_bytes => exact Metered.stop _
  | RowArray pointer max_items record =>
    refine Metered.ite (Metered.stop _) (Metered.ok_or fun items _ => ?_)
    exact (budget.scan_tracks _ _).bind fun _ => row_array_tracks _ _ _ _
  | ObjectArray pointer max_items identity record =>
    refine Metered.ok_or fun items _ => ?_
    refine (budget.scan_tracks _ _).bind fun _ => ?_
    refine Metered.ok_or fun field _ => Metered.ok_or fun max _ => ?_
    exact object_array_tracks _ _ _ _ _ _ _ _
  | ObjectEntries pointer max_items key record =>
    refine Metered.ok_or fun items _ => ?_
    exact (budget.scan_tracks _ _).bind fun _ => object_entries_tracks _ _ _ _ _ _
  | ScalarArray pointer max_items name kind unique =>
    refine Metered.ite (Metered.stop _) (Metered.ok_or fun items _ => ?_)
    exact (budget.scan_tracks _ _).bind fun _ => scalar_array_tracks _ _ _ _ _ _ _

theorem Collection.project_at_tracks (c : Collection R) (source : Value) (selector : Option Str)
    (emit : Bool) :
    Tracks (c.project_at .normalized source selector emit)
      (c.project_at .removed source selector emit) := by
  cases c with
  | TextOption pointer max_items max_bytes =>
    exact Metered.ite (Metered.stop _) (project_text_option_tracks _ _ _ _)
  | _ =>
    refine (Metered.when (budget.bytes_tracks 2)).bind fun _ => ?_
    refine (Collection.project_rows_tracks _ source selector emit).bind fun _ => ?_
    exact Metered.ite (Metered.stop _) (Metered.pure _)

theorem collection_fields_tracks (source : Value) (emit : Bool)
    (fields : List (CollectionField (Collection R))) (result : Map) :
    Tracks (collection_fields .normalized source emit fields result)
      (collection_fields .removed source emit fields result) := by
  induction fields generalizing result with
  | nil => exact Metered.pure _
  | cons field rest ih =>
    refine Metered.lift fun found _ => ?_
    cases found with
    | none => exact Metered.ite (Metered.stop _) (ih _)
    | some value =>
      refine (Metered.when (budget.key_tracks _ _)).bind fun _ => ?_
      exact (field.collection.project_at_tracks value none emit).bind fun _ => ih _

instance : MeteredRecord (Record (Collection R)) where
  project_record_tracks record source key emit := by
    refine (record_fields_tracks record.fields source key emit).bind fun _ => ?_
    exact (collection_fields_tracks source emit record.collections _).bind fun _ => Metered.pure _

end

theorem evaluate_tracks (definition : TypedProjection) (selector : Option Str) (source : Value) :
    Tracks (evaluate .normalized definition selector source)
      (evaluate .removed definition selector source) := by
  refine Metered.lift fun _ _ => Metered.bind ?_ fun o => ?_
  · cases definition with
    | Record guards record => exact MeteredRecord.project_record_tracks record source none true
    | Collection guards c selection =>
      refine Metered.ite (Metered.stop _) (Metered.lift fun found _ => ?_)
      refine Metered.ok_or fun value _ => Metered.bind (Metered.when ?_) fun _ => ?_
      · exact (budget.bytes_tracks 2).bind fun _ => budget.key_tracks _ _
      refine (c.project_at_tracks value selector true).bind fun o => ?_
      exact Metered.ite (Metered.pure _) (Metered.ok_or fun _ _ => Metered.pure _)
  · cases o with
    | none => exact Metered.stop _
    | some v => exact Metered.pure v

/-- The limit decides by the length of the text: a result is refused exactly when its text has
more than 65536 bytes, and an error is the same error or `OutputLimit`. What a run charges is
the length of the text of its result. -/
theorem the_byte_limit_is_on_the_text_of_the_result (definition : TypedProjection)
    (parameters : Parameters) (selector : Option Str) (source : Document)
    (haccepted : definition.validate parameters = .ok ()) :
    (∀ v, project_within .removed definition selector source.1 = .ok v →
      project definition selector source.1 =
        if size v ≤ MAX_NORMALIZED_BYTES then .ok v else .error .OutputLimit) ∧
    (∀ e, project_within .removed definition selector source.1 = .error e →
      project definition selector source.1 = .error e ∨
        project definition selector source.1 = .error .OutputLimit) ∧
    (∀ limit v b, evaluate limit definition selector source.1 .default = (.ok v, b) →
      b.bytes = size v) := by
  have hparts := TypedProjection.validate_spec haccepted
  have hbytes : ∀ limit v b, evaluate limit definition selector source.1 .default = (.ok v, b) →
      b.bytes = size v := by
    intro limit v b hrun
    rw [(evaluate_spec hparts source.2 hrun).2.bytes]
    exact Nat.zero_add _
  have htracks := (evaluate_tracks definition selector source.1).run .default (Nat.zero_le _)
  refine ⟨fun v hv => ?_, fun e he => ?_, hbytes⟩
  · have hrun : evaluate .removed definition selector source.1 .default =
        (.ok v, (evaluate .removed definition selector source.1 .default).2) := Prod.ext hv rfl
    have hsize := hbytes _ _ _ hrun
    rcases htracks with ⟨hsame, hle⟩ | ⟨hstop, hlt⟩
    · have hle := hle _ _ hrun
      rw [if_pos (hsize ▸ hle), project, project_within, hsame]
      exact hv
    · have hlt := hlt _ _ hrun
      rw [if_neg (by omega)]
      exact hstop
  · rcases htracks with ⟨hsame, -⟩ | ⟨hstop, -⟩
    · left
      rw [project, project_within, hsame]
      exact he
    · exact .inr hstop

theorem two_rows_fit_the_byte_limit : ∃ v, size v = 49 ∧
    project_within .removed (named_rows .All) none two_rows.1 = .ok v ∧
    project (named_rows .All) none two_rows.1 = .ok v := by
  have hrun : (project_within .removed (named_rows .All) none two_rows.1).map size = .ok 49 := by
    decide +kernel
  cases hv : project_within .removed (named_rows .All) none two_rows.1 with
  | error e =>
    rw [hv] at hrun
    cases hrun
  | ok v =>
    rw [hv] at hrun
    have hsize : size v = 49 := Except.ok.inj hrun
    have hlimit := (the_byte_limit_is_on_the_text_of_the_result (named_rows .All) [] none two_rows
      (by decide +kernel)).1 v hv
    rw [hsize, if_pos (by decide)] at hlimit
    exact ⟨v, hsize, rfl, hlimit⟩

end openwrt_mcp_core.projection
