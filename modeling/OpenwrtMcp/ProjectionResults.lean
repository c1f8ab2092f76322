-- Whole projections: what a collection and a record with collections return and charge, for
-- each level of a definition, and the laws of the results.
import OpenwrtMcp.ProjectionRows

open json programs programs.Prog text

namespace openwrt_mcp_core.projection

open RecordCheck RecordShape RecordSpec

variable {limit : ByteLimit} {b b' m : Budget}

/-! ## Collections -/

theorem Yields.imp {emit : Bool} {o : Option Value} {Good Good' : Value → Prop}
    {rows rows' : Value → Nat} (h : Yields emit b b' o Good rows)
    (hgood : ∀ v, Good v → Good' v ∧ rows v = rows' v) : Yields emit b b' o Good' rows' := by
  cases emit with
  | false => exact h
  | true =>
    obtain ⟨v, ho, hv, hspends⟩ := h
    exact ⟨v, ho, (hgood v hv).1, hspends.cast rfl (hgood v hv).2⟩

/-- The rows of an array, as they are counted. -/
def array_count (count : Value → Nat) (v : Value) : Nat :=
  (((as_array v).getD []).map fun row => 1 + count row).sum

/-- The brackets of an array and its rows. -/
theorem AddsRows.yields {α : Type} {emit : Bool} {Good : α → Value → Prop} {count : Value → Nat}
    {items : List α} {rows : List Value} {m' : Budget}
    (hopen : when emit (budget.bytes limit 2) b = (.ok (), m)) (hscan : Spends m m' 0 0)
    (hrows : AddsRows emit m' b' Good count items [] rows) :
    Yields emit b b' (if emit then some (.Array rows) else none)
      (fun v => ∃ rows, v = .Array rows ∧ List.Forall₂ Good items rows) (array_count count) := by
  have hopen := when_ok.1 hopen
  cases emit with
  | false =>
    simp only [Bool.false_eq_true, if_false] at hopen
    rw [hopen]
    exact ⟨rfl, hscan.trans hrows.2⟩
  | true =>
    obtain ⟨new, hnew, hgood, n, hspends, hsize⟩ := hrows
    rw [List.nil_append] at hnew
    refine ⟨_, rfl, ⟨rows, rfl, hnew ▸ hgood⟩, ?_⟩
    refine ((budget.bytes_spec hopen).trans (hscan.trans hspends)).cast ?_ ?_
    · have hempty : size (.Array []) = 2 := rfl
      rw [hsize, hempty]
      omega
    · simp [array_count, as_array, hnew]

theorem size_text_option (kind : Str) (values : List Value) :
    size (.Object [("kind".toList, .String kind), ("values".toList, .Array values)]) =
      2 + (text_cost "kind".toList + 1 + (text_cost kind + (text_cost "values".toList + 2))) +
        size (.Array values) := by
  have hstring : size (.String kind) = text_cost kind := len_encode_text kind
  rw [size_object]
  simp only [List.map_cons, List.map_nil, List.sum_cons, List.sum_nil, List.length_cons,
    List.length_nil, field_size, hstring]
  omega

theorem project_text_option_spec {R : Type} [RecordSpec R] {source : Value} {pointer : Str}
    {max_items max_bytes : Nat} {emit : Bool} {o : Option Value}
    (h : project_text_option limit source max_items max_bytes emit b = (.ok o, b')) :
    Yields emit b b' o
      ((Collection.TextOption pointer max_items max_bytes : Collection R).Conforms source)
      (Collection.TextOption pointer max_items max_bytes : Collection R).rows := by
  obtain ⟨⟨kind, values⟩, hkind, h⟩ := ok_or_bind_ok.1 h
  obtain ⟨_, m₁, hscan, h⟩ := bind_ok.1 h
  obtain ⟨_, m₂, hopen, h⟩ := bind_ok.1 h
  obtain ⟨rows, m₃, hvalues, h⟩ := bind_ok.1 h
  obtain ⟨rfl, rfl⟩ := pure_ok.1 h
  obtain ⟨hmax, hscan⟩ := budget.scan_spec hscan
  obtain ⟨hrows, hall⟩ := text_values_spec hvalues
  have hopen := when_ok.1 hopen
  cases emit with
  | false =>
    simp only [Bool.false_eq_true, if_false] at hopen
    exact ⟨rfl, hscan.trans (hopen ▸ hrows.2)⟩
  | true =>
    obtain ⟨new, hnew, hsame, n, hspends, hsize⟩ := hrows
    rw [List.nil_append] at hnew
    have hvalues : new = values := by
      have hflip : List.Forall₂ Eq new values := hsame.flip
      rwa [List.forall₂_eq_eq_eq] at hflip
    rw [hvalues] at hnew hspends
    obtain ⟨_, n₁, hbraces, hopen⟩ := bind_ok.1 hopen
    obtain ⟨_, n₂, hkey, hopen⟩ := bind_ok.1 hopen
    obtain ⟨_, n₃, htext, hopen⟩ := bind_ok.1 hopen
    obtain ⟨_, n₄, hname, hbrackets⟩ := bind_ok.1 hopen
    refine ⟨_, rfl, ⟨kind, values, hkind, by rw [hnew], hmax, hall⟩, ?_⟩
    have hhead := (budget.bytes_spec hbraces).trans ((budget.key_spec hkey).trans
      ((budget.text_spec htext).trans ((budget.key_spec hname).trans
        (budget.bytes_spec hbrackets))))
    refine (hscan.trans (hhead.trans hspends)).cast ?_ ?_
    · have hempty : size (.Array []) = 2 := rfl
      rw [hempty] at hsize
      rw [size_text_option, hsize, Bool.toNat_false, Bool.toNat_true]
      omega
    · simp [Collection.rows, as_object, Map.get, as_array, List.lookup, hnew]

theorem scalar_rows_conform {name : Str} {kind : ScalarKind} {unique : Bool}
    {items rows : List Value} {scalars : List Scalar} (hkind : kind.validate = .ok ())
    (hreads : List.Forall₂ (fun x scalar => Scalar.read kind x = .ok scalar) items scalars)
    (hunique : unique → scalars.Nodup)
    (hrows : List.Forall₂ (ScalarRow name kind) items rows) :
    ∃ values : List Value, rows = values.map (fun x => .Object [(name, x)]) ∧
      List.Forall₂ (Reads kind) items values ∧ (unique → values.Nodup) := by
  refine ⟨scalars.map Scalar.value, ?_, ?_, ?_⟩
  · induction hreads generalizing rows with
    | nil =>
      cases hrows
      rfl
    | cons hread _ ih =>
      cases hrows with
      | cons hrow hrest =>
        obtain ⟨scalar, hsame, rfl⟩ := hrow
        rw [hread] at hsame
        cases hsame
        rw [List.map_cons, List.map_cons, ← ih (fun hu => (List.nodup_cons.1 (hunique hu)).2) hrest]
  · rw [List.forall₂_map_right_iff]
    exact hreads.imp fun x scalar hread => ⟨scalar, hread, rfl, Scalar.read_spec hread hkind⟩
  · intro hu
    refine (hunique hu).map_on fun s hs t ht heq => ?_
    obtain ⟨i, hi, rfl⟩ := List.mem_iff_getElem.1 hs
    obtain ⟨j, hj, rfl⟩ := List.mem_iff_getElem.1 ht
    have hget := (List.forall₂_iff_get.1 hreads)
    exact Scalar.value_injective_on (hget.2 i (hget.1 ▸ hi) hi) (hget.2 j (hget.1 ▸ hj) hj) heq

section
variable {R : Type} [RecordSpec R] {emit : Bool} {source : Value} {o : Option Value}

/-- A collection with no selector, between its brackets. -/
theorem Collection.project_at_none {c : Collection R}
    (hc : ∀ pointer max_items max_bytes, c ≠ .TextOption pointer max_items max_bytes)
    (h : c.project_at limit source none emit b = (.ok o, b')) :
    ∃ m acc, when emit (budget.bytes limit 2) b = (.ok (), m) ∧
      c.project_rows limit source none emit m = (.ok acc, b') ∧
      o = if emit then some (.Array acc.rows) else none := by
  have hbody : c.project_at limit source none emit = (do
      when (emit && (none : Option Str).isNone) (budget.bytes limit 2)
      let acc ← c.project_rows limit source none emit
      if (none : Option Str).isSome && !acc.observed then stop .SelectionNotObserved
      else Pure.pure (if !emit then none
        else if (none : Option Str).isSome then acc.selected else some (.Array acc.rows))) := by
    cases c with
    | TextOption pointer max_items max_bytes => exact absurd rfl (hc pointer max_items max_bytes)
    | _ => rfl
  rw [hbody] at h
  obtain ⟨_, m₁, hopen, h⟩ := bind_ok.1 h
  obtain ⟨acc, m₂, hrows, h⟩ := bind_ok.1 h
  simp only [Option.isSome_none, Bool.false_and, Bool.false_eq_true, if_false] at h
  obtain ⟨rfl, rfl⟩ := pure_ok.1 h
  refine ⟨m₁, acc, by simpa using hopen, hrows, ?_⟩
  cases emit <;> rfl

theorem entry_rows_conform {key : TextIdentity} {record : R} {entries : Map} {rows : List Value}
    (hrows : List.Forall₂ (RowConforms record) (entry_rows key entries) rows) :
    List.Forall₂ (fun entry row => Conforms record (some (key, entry.1)) entry.2 row ∧
      HasText key.name row entry.1) entries rows := by
  rw [entry_rows, List.forall₂_map_left_iff] at hrows
  refine hrows.imp fun entry row hrow => ⟨hrow, ?_⟩
  obtain ⟨result, collections, rfl, hfields⟩ := conforms_fields hrow
  exact ⟨result, rfl, (hfields.key key entry.1 rfl).2⟩

variable [LawfulCheck R]

/-- The identity of a row of an object array stands in its result. -/
theorem identity_in_result {pointer identity : Str} {max_items max : Nat} {record : R}
    {field : ScalarField} {value x row : Value} {id : Str}
    (hlimit : (Collection.ObjectArray pointer max_items identity record).identity_limit = some max)
    (hfield : (fields record).find? (·.name = identity) = some field)
    (haccepted : Accepted record none) (hlookup : lookup value field.source = .ok (some x))
    (hx : as_str x = some id) (hconforms : Conforms record none value row) :
    HasText identity row id := by
  obtain ⟨hmem, hname, -, hkind⟩ :=
    Collection.identity_field hlimit hfield (LawfulCheck.names_nodup haccepted)
  obtain ⟨result, collections, rfl, hfields⟩ := conforms_fields hconforms
  refine ⟨result, rfl, ?_⟩
  rcases hfields.fields field hmem with ⟨hnone, -, -⟩ | ⟨y, v, hsome, hget, hreads⟩
  · rw [hlookup] at hnone
    cases hnone
  · rw [hlookup] at hsome
    cases hsome
    obtain ⟨scalar, hread, rfl, -⟩ := hreads
    rw [hkind] at hread
    obtain ⟨s, rfl, rfl, -⟩ := Scalar.read_text_spec hread
    cases hx
    rw [← hname, hget]
    rfl

theorem array_rows_conform {pointer identity : Str} {max_items max : Nat} {record : R}
    {field : ScalarField} {items rows : List Value} {seen ids : List Str}
    (hlimit : (Collection.ObjectArray pointer max_items identity record).identity_limit = some max)
    (hfield : (fields record).find? (·.name = identity) = some field)
    (haccepted : Accepted record none) (hids : Identified field.source max items seen ids)
    (hrows : List.Forall₂ (RowConforms record) (array_rows items ids) rows) :
    List.Forall₂ (Conforms record none) items rows ∧ List.Forall₂ (HasText identity) rows ids ∧
      [] ∉ ids := by
  induction hids generalizing rows with
  | nil =>
    cases hrows
    exact ⟨.nil, .nil, by simp⟩
  | cons hlookup hx hvalid _ _ ih =>
    cases hrows with
    | cons hrow hrest =>
      obtain ⟨hconforms, htexts, hnonempty⟩ := ih hrest
      have htext := identity_in_result hlimit hfield haccepted hlookup hx hrow
      refine ⟨.cons hrow hconforms, .cons htext htexts, ?_⟩
      simp only [valid_identity, Bool.and_eq_true, decide_eq_true_eq] at hvalid
      simpa [hnonempty] using hvalid.1.1.symm

variable [LawfulRecord R]

theorem Collection.project_at_spec {c : Collection R} (haccepted : c.Accepted)
    (h : c.project_at limit source none emit b = (.ok o, b')) :
    Yields emit b b' o (c.Conforms source) c.rows := by
  have hparts := Collection.accepted_spec haccepted
  cases c with
  | TextOption pointer max_items max_bytes => exact project_text_option_spec h
  | RowArray pointer max_items record =>
    obtain ⟨m₁, acc, hopen, hrows, rfl⟩ := project_at_none (by simp) h
    obtain ⟨items, hitems, hrows⟩ := ok_or_bind_ok.1 hrows
    obtain ⟨_, m₂, hscan, hrows⟩ := bind_ok.1 hrows
    obtain ⟨hmax, hscan⟩ := budget.scan_spec hscan
    refine (AddsRows.yields hopen hscan (row_array_spec hrows hparts)).imp fun v hv => ?_
    obtain ⟨rows, rfl, hrows⟩ := hv
    exact ⟨⟨items, rows, as_array_eq_some.1 hitems, rfl, hrows.length_eq ▸ hmax, hrows⟩, rfl⟩
  | ObjectArray pointer max_items identity record =>
    obtain ⟨m₁, acc, hopen, hrows, rfl⟩ := project_at_none (by simp) h
    obtain ⟨items, hitems, hrows⟩ := ok_or_bind_ok.1 hrows
    obtain ⟨_, m₂, hscan, hrows⟩ := bind_ok.1 hrows
    obtain ⟨hmax, hscan⟩ := budget.scan_spec hscan
    obtain ⟨field, hfield, hrows⟩ := ok_or_bind_ok.1 hrows
    obtain ⟨max, hlimit, hrows⟩ := ok_or_bind_ok.1 hrows
    obtain ⟨ids, hids⟩ := object_array_identified hrows
    rw [object_array_eq hids] at hrows
    have haccepted : ∀ row ∈ array_rows items ids,
      projection.Accepted record (row.key.map Prod.fst) := by
      intro row hrow
      obtain ⟨i, hi, rfl⟩ := List.mem_iff_getElem.1 hrow
      simpa [array_rows] using hparts.2
    refine (AddsRows.yields hopen hscan (identified_rows_all hrows haccepted)).imp fun v hv => ?_
    obtain ⟨rows, rfl, hrows⟩ := hv
    obtain ⟨hconforms, htexts, hnonempty⟩ := array_rows_conform hlimit hfield hparts.2 hids hrows
    exact ⟨⟨items, rows, ids, as_array_eq_some.1 hitems, rfl, hconforms.length_eq ▸ hmax, hconforms,
      htexts, hids.fresh.1, hnonempty⟩, rfl⟩
  | ObjectEntries pointer max_items key record =>
    obtain ⟨m₁, acc, hopen, hrows, rfl⟩ := project_at_none (by simp) h
    obtain ⟨entries, hentries, hrows⟩ := ok_or_bind_ok.1 hrows
    obtain ⟨_, m₂, hscan, hrows⟩ := bind_ok.1 hrows
    obtain ⟨hmax, hscan⟩ := budget.scan_spec hscan
    rw [object_entries_eq (object_entries_valid hrows)] at hrows
    have haccepted : ∀ row ∈ entry_rows key entries,
      projection.Accepted record (row.key.map Prod.fst) := by
      intro row hrow
      obtain ⟨entry, -, rfl⟩ := List.mem_map.1 hrow
      exact hparts
    refine (AddsRows.yields hopen hscan (identified_rows_all hrows haccepted)).imp fun v hv => ?_
    obtain ⟨rows, rfl, hrows⟩ := hv
    have hconforms := entry_rows_conform hrows
    exact ⟨⟨entries, rows, as_object_eq_some.1 hentries, rfl, hconforms.length_eq ▸ hmax,
      hconforms⟩, rfl⟩
  | ScalarArray pointer max_items name kind unique =>
    obtain ⟨m₁, acc, hopen, hrows, rfl⟩ := project_at_none (by simp) h
    obtain ⟨items, hitems, hrows⟩ := ok_or_bind_ok.1 hrows
    obtain ⟨_, m₂, hscan, hrows⟩ := bind_ok.1 hrows
    obtain ⟨hmax, hscan⟩ := budget.scan_spec hscan
    obtain ⟨scalars, hreads, hunique⟩ := scalar_array_reads hrows
    refine (AddsRows.yields hopen hscan (scalar_array_spec hrows)).imp fun v hv => ?_
    obtain ⟨rows, rfl, hrows⟩ := hv
    obtain ⟨values, rfl, hvalues, hnodup⟩ :=
      scalar_rows_conform hparts hreads (fun hu => (hunique hu).1) hrows
    refine ⟨⟨items, values, as_array_eq_some.1 hitems, rfl, hvalues.length_eq ▸ hmax, hvalues,
      hnodup⟩, ?_⟩
    simp [array_count, Collection.rows, as_array, Function.comp_def]

/-! ## Records with collections -/

theorem collection_fields_quiet {fields : List (CollectionField (Collection R))}
    {result result' : Map} (haccepted : ∀ field ∈ fields, field.collection.Accepted)
    (h : collection_fields limit source false fields result b = (.ok result', b')) :
    result' = result ∧ Spends b b' 0 0 := by
  induction fields generalizing b with
  | nil =>
    obtain ⟨rfl, rfl⟩ := pure_ok.1 h
    exact ⟨rfl, Spends.refl _⟩
  | cons field rest ih =>
    rw [List.forall_mem_cons] at haccepted
    obtain ⟨found, hlookup, h⟩ := lift_bind_ok.1 h
    cases found with
    | none =>
      simp only at h
      split at h
      · simp at h
      · exact ih haccepted.2 h
    | some x =>
      obtain ⟨_, m₁, hopen, h⟩ := bind_ok.1 h
      have hopen : b = m₁ := when_ok.1 hopen
      obtain ⟨projected, m₂, hproject, h⟩ := bind_ok.1 h
      obtain ⟨rfl, hspends⟩ := Collection.project_at_spec haccepted.1 hproject
      obtain ⟨hresult, hrest⟩ := ih haccepted.2 h
      rw [hopen]
      exact ⟨hresult, hspends.trans hrest⟩

theorem collection_fields_spec {fields : List (CollectionField (Collection R))}
    {result result' : Map} (haccepted : ∀ field ∈ fields, field.collection.Accepted)
    (hnew : ∀ field ∈ fields, field.name ∉ result.keys)
    (hnodup : (fields.map CollectionField.name).Nodup)
    (h : collection_fields limit source true fields result b = (.ok result', b')) :
    Adds b b' result result' (fields.map CollectionField.name)
        (fields.map (collection_rows result')).sum ∧
      ∀ field ∈ fields, Projected source field.collection.source field.presence
        field.collection.Conforms field.name result' := by
  induction fields generalizing result b with
  | nil =>
    obtain ⟨rfl, rfl⟩ := pure_ok.1 h
    exact ⟨Adds.refl _ _ _, by simp⟩
  | cons field rest ih =>
    rw [List.map_cons, List.nodup_cons] at hnodup
    rw [List.forall_mem_cons] at hnew haccepted
    have hfirst : ∃ m middle, Adds b m result middle [field.name] (collection_rows middle field) ∧
        Projected source field.collection.source field.presence field.collection.Conforms field.name
          middle ∧
        collection_fields limit source true rest middle m = (.ok result', b') := by
      obtain ⟨found, hlookup, h⟩ := lift_bind_ok.1 h
      cases found with
      | none =>
        simp only at h
        split at h
        · simp at h
        · rename_i hpresence
          have hoptional : field.presence = .Optional := by
            cases hp : field.presence
            · exact absurd hp hpresence
            · rfl
          have hnone := Map.get_eq_none_iff.2 hnew.1
          have hrows : collection_rows result field = 0 := by simp [collection_rows, hnone]
          refine ⟨b, result, ?_, .inl ⟨hlookup, hoptional, hnone⟩, h⟩
          rw [hrows]
          exact Adds.refl _ _ _
      | some x =>
        obtain ⟨_, m₁, hopen, h⟩ := bind_ok.1 h
        have hkey := budget.key_spec (when_ok.1 hopen)
        obtain ⟨projected, m₂, hproject, h⟩ := bind_ok.1 h
        obtain ⟨v, rfl, hconforms, hspends⟩ := Collection.project_at_spec haccepted.1 hproject
        have hget := Map.get_insert_self result field.name v
        have hrows : collection_rows (result.insert field.name v) field =
          field.collection.rows v := by
          simp [collection_rows, hget]
        refine ⟨m₂, _, ?_, .inr ⟨x, v, hlookup, hget, hconforms⟩, h⟩
        rw [hrows]
        exact Adds.insert hnew.1 hkey hspends
    obtain ⟨m, middle, hadds, hprojected, hrest⟩ := hfirst
    have hnew' : ∀ f ∈ rest, f.name ∉ middle.keys := by
      intro f hf hmem
      rcases hadds.keys _ hmem with hmem | hmem
      · exact hnew.2 f hf hmem
      · exact hnodup.1 (List.mem_map.2 ⟨f, hf, by simpa using hmem⟩)
    obtain ⟨hadds', hall⟩ := ih haccepted.2 hnew' hnodup.2 hrest
    have hframe := hadds'.frame _ hnodup.1
    have hrows : collection_rows result' field = collection_rows middle field := by
      simp [collection_rows, hframe]
    refine ⟨?_, List.forall_mem_cons.2 ⟨hprojected.congr hframe, hall⟩⟩
    rw [List.map_cons, List.map_cons, List.sum_cons, hrows]
    exact hadds.trans hadds'

instance : LawfulRecord (Record (Collection R)) where
  project_record_spec := by
    intro limit record source key emit b b' o haccepted h
    obtain ⟨hfields, hcollections⟩ := Record.accepted_spec haccepted
    obtain ⟨start, m₁, hstart, h⟩ := bind_ok.1 h
    obtain ⟨result, m₂, hresult, h⟩ := bind_ok.1 h
    obtain ⟨rfl, rfl⟩ := pure_ok.1 h
    cases emit with
    | false =>
      obtain ⟨rfl, rfl⟩ := record_fields_quiet hstart
      exact ⟨rfl, (collection_fields_quiet hcollections hresult).2⟩
    | true =>
      obtain ⟨hprojected, hspends, hnew⟩ := record_fields_spec hstart hfields
      have hnames := hfields.names
      rw [declared, List.nodup_append, List.nodup_append] at hnames
      have hfresh : ∀ field ∈ record.collections, field.name ∉ start.keys := by
        intro field hfield
        exact hnew _ (List.mem_map_of_mem hfield)
      obtain ⟨hadds, hall⟩ := collection_fields_spec hcollections hfresh hnames.2.1.2.1 hresult
      obtain ⟨n, hmore, hsize⟩ := hadds.spends
      refine ⟨_, rfl, ⟨result, rfl, ?_, hall⟩, (hspends.trans hmore).cast hsize.symm (by simp; rfl)⟩
      exact hprojected.extend hadds hfields

end

/-! ## Definitions -/

/-- A result for a selector: the row of the one item that has the text as its identity. -/
def Collection.Selected {R : Type} [RecordSpec R] (c : Collection R) (source : Value) (t : Str)
    (v : Value) : Prop :=
  match c with
  | .ObjectArray _ max_items identity record => ∃ items, source = .Array items ∧
    items.length ≤ max_items ∧ (∃ item ∈ items, RecordSpec.Conforms record none item v) ∧
    HasText identity v t ∧ t ≠ []
  | .ObjectEntries _ max_items key record => ∃ entries, source = .Object entries ∧
    entries.length ≤ max_items ∧
    (∃ value, (t, value) ∈ entries ∧ RecordSpec.Conforms record (some (key, t)) value v) ∧
      HasText key.name v t
  | .TextOption .. | .RowArray .. | .ScalarArray .. => False

/-- The record of the rows that can be selected, and the rows in one. -/
def Collection.selected_rows {R : Type} [RecordSpec R] (c : Collection R) (v : Value) : Nat :=
  match c with
  | .ObjectArray _ _ _ record | .ObjectEntries _ _ _ record => 1 + RecordSpec.rows record v
  | .TextOption .. | .RowArray .. | .ScalarArray .. => 0

namespace TypedProjection

/-- What a definition asks of a result for a response. -/
def Conforms (definition : TypedProjection) (selector : Option Str) (source v : Value) : Prop :=
  match definition with
  | .Record _ record => RecordSpec.Conforms record none source v
  | .Collection _ c .All => ∃ x items, lookup source c.source = .ok (some x) ∧
    v = .Object [("items".toList, items)] ∧ c.Conforms x items
  | .Collection _ c (.ExactOne _) => ∃ t x, selector = some t ∧
    lookup source c.source = .ok (some x) ∧ c.Selected x t v

/-- The rows and the values in a result, over all the collections in it. -/
def rows (definition : TypedProjection) (v : Value) : Nat :=
  match definition with
  | .Record _ record => RecordSpec.rows record v
  | .Collection _ c .All =>
    ((as_object v).bind fun fields => (Map.get fields "items".toList)).elim 0 c.rows
  | .Collection _ c (.ExactOne _) => c.selected_rows v

end TypedProjection

theorem lookup_segments_sorted {source x : Value} {path : List Str} (hsource : Sorted source)
    (h : lookup_segments source path = .ok (some x)) : Sorted x := by
  induction path generalizing source with
  | nil =>
    cases h
    exact hsource
  | cons key rest ih =>
    cases source with
    | Object fields =>
      simp only [lookup_segments] at h
      split at h
      · cases h
      · rename_i next hnext
        exact ih (hsource.get hnext) h
    | Array items =>
      simp only [lookup_segments] at h
      split at h
      · cases h
      · split at h
        · cases h
        · rename_i next hnext
          split at hnext
          · exact ih (hsource.item hnext) h
          · cases hnext
    | _ => cases h

section
variable {R : Type} [RecordSpec R]

theorem Collection.project_at_some {c : Collection R} {source : Value} {t : Str} {o : Option Value}
    (h : c.project_at limit source (some t) true b = (.ok o, b')) :
    ∃ acc, c.project_rows limit source (some t) true b = (.ok acc, b') ∧ acc.observed ∧
      o = acc.selected := by
  have hbody : (∃ pointer max_items max_bytes, c = .TextOption pointer max_items max_bytes) ∨
      c.project_at limit source (some t) true = (do
        let acc ← c.project_rows limit source (some t) true
        if !acc.observed then stop .SelectionNotObserved else Pure.pure acc.selected) := by
    cases c with
    | TextOption pointer max_items max_bytes => exact .inl ⟨_, _, _, rfl⟩
    | _ => exact .inr rfl
  rcases hbody with ⟨pointer, max_items, max_bytes, rfl⟩ | hbody
  · simp [Collection.project_at] at h
  · rw [hbody] at h
    obtain ⟨acc, m₁, hrows, h⟩ := bind_ok.1 h
    split at h
    · simp at h
    · rename_i hobserved
      obtain ⟨rfl, rfl⟩ := pure_ok.1 h
      exact ⟨acc, hrows, by simpa using hobserved, rfl⟩

variable [LawfulCheck R] [LawfulRecord R]

/-- A collection under a selector returns the one row that is selected. -/
theorem Collection.project_at_selected {c : Collection R} {source : Value} {t : Str}
    {o : Option Value} (haccepted : c.Accepted) (hsource : Sorted source)
    (h : c.project_at limit source (some t) true b = (.ok o, b')) :
    ∃ v, o = some v ∧ c.Selected source t v ∧ Spends b b' (size v) (c.selected_rows v) := by
  have hparts := Collection.accepted_spec haccepted
  obtain ⟨acc, hrows, hobserved, rfl⟩ := Collection.project_at_some h
  cases c with
  | TextOption pointer max_items max_bytes => simp [Collection.project_rows] at hrows
  | RowArray pointer max_items record => simp [Collection.project_rows] at hrows
  | ScalarArray pointer max_items name kind unique => simp [Collection.project_rows] at hrows
  | ObjectArray pointer max_items identity record =>
    obtain ⟨items, hitems, hrows⟩ := ok_or_bind_ok.1 hrows
    obtain ⟨_, m₂, hscan, hrows⟩ := bind_ok.1 hrows
    obtain ⟨hmax, hscan⟩ := budget.scan_spec hscan
    obtain ⟨field, hfield, hrows⟩ := ok_or_bind_ok.1 hrows
    obtain ⟨max, hlimit, hrows⟩ := ok_or_bind_ok.1 hrows
    obtain ⟨ids, hids⟩ := object_array_identified hrows
    rw [object_array_eq hids] at hrows
    have haccepted : ∀ row ∈ array_rows items ids,
      projection.Accepted record (row.key.map Prod.fst) := by
      intro row hrow
      rw [(hids.row hrow).key]
      exact hparts.2
    have hnodup : ((array_rows items ids).map IdentifiedRow.identity).Nodup := by
      rw [hids.identities]
      exact hids.fresh.1
    have hselects := identified_rows_selected hrows haccepted hnodup
    by_cases ht : t ∈ (array_rows items ids).map IdentifiedRow.identity
    · obtain ⟨row, hrow, rfl, v, hconforms, -, hselected, hspends⟩ := hselects.2 ht
      obtain ⟨hmem, hkey, x, hlookup, hx, hvalid⟩ := hids.row hrow
      rw [RowConforms, hkey] at hconforms
      have htext := identity_in_result hlimit hfield hparts.2 hlookup hx hconforms
      simp only [valid_identity, Bool.and_eq_true, decide_eq_true_eq] at hvalid
      refine ⟨v, hselected, ?_, (hscan.trans hspends).cast (by simp) (Nat.zero_add _)⟩
      exact ⟨items, as_array_eq_some.1 hitems, hmax, ⟨row.value, hmem, hconforms⟩, htext,
        hvalid.1.1⟩
    · rw [(hselects.1 ht).1] at hobserved
      cases hobserved
  | ObjectEntries pointer max_items key record =>
    obtain ⟨entries, hentries, hrows⟩ := ok_or_bind_ok.1 hrows
    obtain ⟨_, m₂, hscan, hrows⟩ := bind_ok.1 hrows
    obtain ⟨hmax, hscan⟩ := budget.scan_spec hscan
    rw [object_entries_eq (object_entries_valid hrows)] at hrows
    have haccepted : ∀ row ∈ entry_rows key entries,
      projection.Accepted record (row.key.map Prod.fst) := by
      intro row hrow
      obtain ⟨entry, -, rfl⟩ := List.mem_map.1 hrow
      exact hparts
    have hnodup : ((entry_rows key entries).map IdentifiedRow.identity).Nodup := by
      rw [as_object_eq_some.1 hentries] at hsource
      simpa [entry_rows, Map.keys, Function.comp_def] using hsource.keys_nodup
    have hselects := identified_rows_selected hrows haccepted hnodup
    by_cases ht : t ∈ (entry_rows key entries).map IdentifiedRow.identity
    · obtain ⟨row, hrow, rfl, v, hconforms, -, hselected, hspends⟩ := hselects.2 ht
      obtain ⟨entry, hentry, rfl⟩ := List.mem_map.1 hrow
      obtain ⟨result, collections, hv, hfields⟩ := conforms_fields hconforms
      refine ⟨v, hselected, ?_, (hscan.trans hspends).cast (by simp) (Nat.zero_add _)⟩
      refine ⟨entries, as_object_eq_some.1 hentries, hmax, ⟨entry.2, hentry, hconforms⟩, ?_⟩
      exact ⟨result, hv, (hfields.key key entry.1 rfl).2⟩
    · rw [(hselects.1 ht).1] at hobserved
      cases hobserved

end

/-- A run that succeeds returns what its definition asks for, and charges just its bytes and
its rows. -/
theorem evaluate_spec {definition : TypedProjection} {selector : Option Str} {source v : Value}
    (haccepted : definition.PartsAccepted) (hsource : Sorted source)
    (h : evaluate limit definition selector source b = (.ok v, b')) :
    definition.Conforms selector source v ∧ Spends b b' (size v) (definition.rows v) := by
  obtain ⟨_, hguards, h⟩ := lift_bind_ok.1 h
  obtain ⟨o, m₁, hrun, hresult⟩ := bind_ok.1 h
  obtain ⟨rfl, rfl⟩ := ok_or_ok.1 hresult
  cases definition with
  | Record guards record =>
    have hrecord : Accepted record ((none : Option (TextIdentity × Str)).map Prod.fst) := haccepted
    obtain ⟨w, hw, hconforms, hspends⟩ := LawfulRecord.project_record_spec hrecord hrun
    cases hw
    exact ⟨hconforms, hspends⟩
  | Collection guards c selection =>
    simp only [project_definition] at hrun
    by_cases hselection : is_exact_one selection = selector.isSome
    case neg =>
      rw [if_pos hselection] at hrun
      simp at hrun
    rw [if_neg (not_not_intro hselection)] at hrun
    obtain ⟨found, hlookup, hrun⟩ := lift_bind_ok.1 hrun
    obtain ⟨x, hx, hrun⟩ := ok_or_bind_ok.1 hrun
    rw [hx] at hlookup
    obtain ⟨_, m₂, hopen, hrun⟩ := bind_ok.1 hrun
    obtain ⟨o, m₃, hproject, hrun⟩ := bind_ok.1 hrun
    cases selection with
    | All =>
      have hnone : selector = none := by simpa [is_exact_one] using hselection
      subst hnone
      obtain ⟨items, ho, hrun⟩ := ok_or_bind_ok.1 hrun
      obtain ⟨hv, rfl⟩ := pure_ok.1 hrun
      cases hv
      obtain ⟨w, hw, hconforms, hspends⟩ := Collection.project_at_spec haccepted hproject
      rw [ho] at hw
      cases hw
      obtain ⟨_, m₄, hbraces, hkey⟩ := bind_ok.1 (when_ok.1 hopen)
      refine ⟨⟨x, items, hlookup, rfl, hconforms⟩, ?_⟩
      refine ((budget.bytes_spec hbraces).trans ((budget.key_spec hkey).trans hspends)).cast ?_ ?_
      · rw [size_single, Bool.toNat_false]
        omega
      · simp [TypedProjection.rows, as_object, Map.get, List.lookup]
    | ExactOne parameter =>
      cases selector with
      | none => simp [is_exact_one] at hselection
      | some t =>
        have hopen : b = m₂ := when_ok.1 hopen
        obtain ⟨rfl, rfl⟩ := pure_ok.1 hrun
        have hsorted := lookup_segments_sorted hsource hlookup
        obtain ⟨w, hw, hselected, hspends⟩ :=
          Collection.project_at_selected haccepted hsorted hproject
        cases hw
        rw [hopen]
        exact ⟨⟨t, x, rfl, hlookup, hselected⟩, hspends⟩

/-- What `project` returns has the shape of its definition, and no more than 256 rows and values
over all the collections in it. -/
theorem a_result_has_the_shape_of_its_definition (definition : TypedProjection)
    (parameters : Parameters) (selector : Option Str) (source : Document) (v : Value)
    (haccepted : definition.validate parameters = .ok ())
    (h : project definition selector source.1 = .ok v) :
    definition.Conforms selector source.1 v ∧ definition.rows v ≤ MAX_COLLECTION_ITEMS := by
  have hrun : ∃ b', evaluate .normalized definition selector source.1 .default = (.ok v, b') :=
    ⟨_, Prod.ext h rfl⟩
  obtain ⟨b', hrun⟩ := hrun
  obtain ⟨hconforms, hspends⟩ :=
    evaluate_spec (TypedProjection.validate_spec haccepted) source.2 hrun
  have hlimit := hspends.limit (Nat.zero_le _)
  rw [hspends.emitted] at hlimit
  exact ⟨hconforms, Nat.le_trans (Nat.le_add_left _ _) hlimit⟩

/-- A list of named rows, one of them with a speed. -/
def named_rows (selection : Selection) : TypedProjection :=
  .Collection ["/error".toList]
    (.ObjectArray "/rows".toList 4 "name".toList
      ⟨[⟨"name".toList, "/name".toList, .Required, .Text 8⟩,
        ⟨"speed".toList, "/link/speed".toList, .Optional, .SafeInteger 0 1000⟩], []⟩)
    selection

def two_rows : Document :=
  ⟨.Object [("rows".toList, .Array [
    .Object [("link".toList, .Object [("speed".toList, .Number (.PosInt 100))]),
      ("name".toList, .String "a".toList)],
    .Object [("name".toList, .String "b".toList)]])], by
      simp only [Sorted, sorted_items, sorted_fields, Map.keys]
      decide⟩

theorem two_rows_have_the_shape : ∃ v,
    encode v =
      "\x7b\"items\":[\x7b\"name\":\"a\",\"speed\":100\x7d,\x7b\"name\":\"b\"\x7d]\x7d".toList ∧
    (named_rows .All).Conforms none two_rows.1 v ∧
    (named_rows .All).rows v ≤ MAX_COLLECTION_ITEMS := by
  have hrun : (project (named_rows .All) none two_rows.1).map encode = .ok
      "\x7b\"items\":[\x7b\"name\":\"a\",\"speed\":100\x7d,\x7b\"name\":\"b\"\x7d]\x7d".toList := by
    decide +kernel
  cases h : project (named_rows .All) none two_rows.1 with
  | error e =>
    rw [h] at hrun
    cases hrun
  | ok v =>
    rw [h] at hrun
    refine ⟨v, Except.ok.inj hrun, ?_⟩
    exact a_result_has_the_shape_of_its_definition (named_rows .All) [] none two_rows v
      (by decide) h

end openwrt_mcp_core.projection
