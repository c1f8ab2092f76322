-- What a line of the listing stands for: one method, with the label of each of its arguments. The
-- visitors and the loop over the lines are each read backwards once.
import OpenwrtMcp.Describe
import OpenwrtMcp.MapEntries
import OpenwrtMcp.Programs

open json json.grammar maps openwrt_mcp_core programs serde_json text

namespace openwrt_mcp_device_codec.describe

/-- A method, and the label of every argument in the order of the line. -/
structure Row where
  name : Str
  labels : List (Str × Str)

def Checked (argument : Str × Str) : Prop :=
  identifier argument.1 64 = true ∧ valid_label argument.2 = true

def typed (argument : Str × Str) : Str × UbusArgumentType := (argument.1, kind_of argument.2)

theorem keys_typed (labels : List (Str × Str)) :
    (labels.map typed).map Prod.fst = labels.map Prod.fst := by
  simp [typed]

namespace Row

def signature (row : Row) : MethodSignature := ⟨.collect (row.labels.map typed)⟩

def entry (row : Row) : Str × MethodSignature := (row.name, row.signature)

/-- The document that the line is between its braces. -/
def tree (row : Row) : Tree :=
  .Object [(row.name, .Object (row.labels.map fun argument => (argument.1, .String argument.2)))]

def node (row : Row) : Node :=
  .Map [(row.name, .Map (row.labels.map fun argument => (argument.1, .Str argument.2)) true)] true

structure Valid (row : Row) : Prop where
  name : identifier row.name 128 = true
  count : row.labels.length ≤ 64
  checked : ∀ argument ∈ row.labels, Checked argument
  once : (row.labels.map Prod.fst).Nodup

theorem field_nodes_strings (number : Str → Option ParserNumber) (labels : List (Str × Str)) :
    field_nodes number (labels.map fun argument => (argument.1, .String argument.2)) =
      labels.map fun argument => (argument.1, .Str argument.2) := by
  induction labels with
  | nil => simp [field_nodes]
  | cons argument labels ih => simp [field_nodes, serde_json.node, ih]

theorem node_tree (number : Str → Option ParserNumber) (row : Row) :
    serde_json.node number row.tree = row.node := by
  simp [tree, node, serde_json.node, field_nodes, field_nodes_strings]

theorem string_of_node {number : Str → Option ParserNumber} {label : Str} {t : Tree}
    (h : serde_json.node number t = .Str label) : t = .String label := by
  cases t with
  | String value => simpa [serde_json.node] using h
  | Number lexeme =>
    rw [serde_json.node] at h
    cases hnumber : number lexeme with
    | none => simp [hnumber, number_node] at h
    | some n => cases n <;> simp [hnumber, number_node] at h
  | _ => simp [serde_json.node] at h

theorem object_of_node {number : Str → Option ParserNumber} {fields : List (Str × Node)} {t : Tree}
    (h : serde_json.node number t = .Map fields true) :
    ∃ members, t = .Object members ∧ field_nodes number members = fields := by
  cases t with
  | Object members => exact ⟨members, rfl, by simpa [serde_json.node] using h⟩
  | Number lexeme =>
    rw [serde_json.node] at h
    cases hnumber : number lexeme with
    | none => simp [hnumber, number_node] at h
    | some n => cases n <;> simp [hnumber, number_node] at h
  | _ => simp [serde_json.node] at h

theorem strings_of_nodes {number : Str → Option ParserNumber} {labels : List (Str × Str)}
    {members : List (Str × Tree)} (h : field_nodes number members =
      labels.map fun argument => (argument.1, .Str argument.2)) :
    members = labels.map fun argument => (argument.1, .String argument.2) := by
  induction labels generalizing members with
  | nil =>
    cases members with
    | nil => rfl
    | cons member members => simp [field_nodes] at h
  | cons argument labels ih =>
    cases members with
    | nil => simp [field_nodes] at h
    | cons member members =>
      simp only [field_nodes, List.map_cons, List.cons.injEq, Prod.mk.injEq] at h
      obtain ⟨⟨hkey, hvalue⟩, hrest⟩ := h
      have hmember : member = (argument.1, .String argument.2) :=
        Prod.ext hkey (string_of_node hvalue)
      rw [List.map_cons, ← ih hrest, hmember]

/-- Only a document of this shape gives these parts. -/
theorem tree_of_node {number : Str → Option ParserNumber} {row : Row} {t : Tree}
    (h : serde_json.node number t = row.node) : t = row.tree := by
  obtain ⟨members, rfl, hmembers⟩ := object_of_node h
  match members with
  | [] => simp [field_nodes] at hmembers
  | [(key, value)] =>
    simp only [field_nodes, List.cons.injEq, Prod.mk.injEq, and_true] at hmembers
    obtain ⟨rfl, hvalue⟩ := hmembers
    obtain ⟨arguments, rfl, harguments⟩ := object_of_node hvalue
    rw [strings_of_nodes harguments, tree]
  | _ :: _ :: _ => simp [field_nodes] at hmembers

end Row

/-! ## The visitors -/

variable {closed : Bool} {fields : List (Str × Node)}
  {arguments result : BTreeMap Str UbusArgumentType}

/-- The visitor reads the arguments that may follow, and no others. -/
theorem visit_arguments_ok (h : arguments.len ≤ 64) :
    visit_arguments closed fields arguments = .ok result ↔ closed = true ∧
      ∃ labels : List (Str × Str), fields = labels.map
        (fun argument => (argument.1, .Str argument.2)) ∧
        (∀ argument ∈ labels, Checked argument) ∧ BTreeMap.Fits 64 (labels.map typed) arguments ∧
          result = arguments.extend (labels.map typed) := by
  induction fields generalizing arguments with
  | nil =>
    unfold visit_arguments
    constructor
    · intro hread
      cases hclosed : closed with
      | false => simp [hclosed] at hread
      | true =>
        simp only [hclosed, if_true, Except.ok.injEq] at hread
        exact ⟨rfl, [], rfl, by simp, BTreeMap.fits_nil.2 h, hread.symm⟩
    · intro hread
      obtain ⟨rfl, labels, hfields, -, -, rfl⟩ := hread
      obtain rfl : labels = [] := List.map_eq_nil_iff.1 hfields.symm
      rfl
  | cons field fields ih =>
    obtain ⟨name, value⟩ := field
    unfold visit_arguments
    constructor
    · intro hread
      split at hread
      · cases hread
      · rename_i hguard
        simp only [Bool.or_eq_true, decide_eq_true_eq, Bool.not_eq_true', not_or,
          Bool.not_eq_false, BTreeMap.contains_key_iff] at hguard
        obtain ⟨⟨hlen, hname⟩, hnew⟩ := hguard
        cases value with
        | Str label =>
          by_cases hlabel : valid_label label = true
          · simp only [hlabel, if_true] at hread
            have hinsert : (arguments.insert name (kind_of label)).len ≤ 64 := by
              rw [BTreeMap.len_insert hnew]
              omega
            obtain ⟨hclosed, labels, rfl, hchecked, hfits, rfl⟩ := (ih hinsert).1 hread
            refine ⟨hclosed, (name, label) :: labels, rfl, ?_, ?_, rfl⟩
            · exact List.forall_mem_cons.2 ⟨⟨hname, hlabel⟩, hchecked⟩
            · exact BTreeMap.fits_cons.2 ⟨by omega, hnew, hfits⟩
          · simp only [hlabel, Bool.false_eq_true, if_false, reduceCtorEq] at hread
        | _ => simp at hread
    · intro hread
      obtain ⟨hclosed, labels, hfields, hchecked, hfits, rfl⟩ := hread
      cases labels with
      | nil => cases hfields
      | cons argument labels =>
        obtain ⟨name', label⟩ := argument
        simp only [List.map_cons, List.cons.injEq, Prod.mk.injEq] at hfields
        obtain ⟨⟨rfl, rfl⟩, hfields⟩ := hfields
        obtain ⟨⟨hname, hlabel⟩, hrest⟩ := List.forall_mem_cons.1 hchecked
        obtain ⟨hlen, hnew, hfits⟩ := BTreeMap.fits_cons.1 hfits
        have hguard : ¬ (arguments.len = 64 || !identifier name 64 ||
            arguments.contains_key name) = true := by
          simp only [Bool.or_eq_true, decide_eq_true_eq, Bool.not_eq_true', not_or,
            Bool.not_eq_false, BTreeMap.contains_key_iff]
          exact ⟨⟨by omega, hname⟩, hnew⟩
        have hinsert : (arguments.insert name (kind_of label)).len ≤ 64 := by
          rw [BTreeMap.len_insert hnew]
          omega
        simp only [if_neg hguard, hlabel, if_true]
        exact (ih hinsert).2 ⟨hclosed, labels, hfields, hrest, hfits, rfl⟩

/-- A line is read as the method of a valid row, and of no other. -/
theorem deserialize_method_ok {part : Node} {method : Str × MethodSignature} :
    deserialize_method part = .ok method ↔
      ∃ row : Row, row.Valid ∧ part = row.node ∧ method = row.entry := by
  constructor
  · intro hread
    unfold deserialize_method at hread
    split at hread
    · rename_i name value rest closed
      by_cases hname : identifier name 128 = true
      · simp only [hname, Bool.not_true, Bool.false_eq_true, if_false] at hread
        obtain ⟨arguments, harguments, hread⟩ := except_bind_ok.1 hread
        split at hread
        · rename_i hend
          rw [Bool.and_eq_true, List.isEmpty_iff] at hend
          obtain ⟨rfl, rfl⟩ := hend
          cases value with
          | Map fields inner =>
            rw [deserialize_arguments, visit_arguments_ok (by simp [BTreeMap.empty, BTreeMap.len])]
              at harguments
            obtain ⟨rfl, labels, rfl, hchecked, hfits, rfl⟩ := harguments
            refine ⟨⟨name, labels⟩, ⟨hname, ?_, hchecked, ?_⟩, rfl, ?_⟩
            · simpa [BTreeMap.empty, BTreeMap.len] using hfits.count
            · rw [← keys_typed]
              exact hfits.once
            · exact (Except.ok.inj hread).symm
          | _ => cases harguments
        · cases hread
      · simp [hname] at hread
    · cases hread
  · intro h
    obtain ⟨row, hvalid, rfl, rfl⟩ := h
    have hfits : BTreeMap.Fits 64 (row.labels.map typed) .empty := by
      refine .of_empty ?_ ?_
      · simpa using hvalid.count
      · rw [keys_typed]
        exact hvalid.once
    have harguments : deserialize_arguments
        (.Map (row.labels.map fun argument => (argument.1, .Str argument.2)) true) =
          .ok (.extend .empty (row.labels.map typed)) :=
      (visit_arguments_ok (by simp [BTreeMap.empty, BTreeMap.len])).2
        ⟨rfl, row.labels, rfl, hvalid.checked, hfits, rfl⟩
    simp only [Row.node, deserialize_method, hvalid.name, Bool.not_true, Bool.false_eq_true,
      if_false]
    exact except_bind_ok.2 ⟨_, harguments, rfl⟩

theorem complete_strings (labels : List (Str × Str)) :
    complete_fields (labels.map fun argument => (argument.1, .Str argument.2)) := by
  induction labels with
  | nil => simp [complete_fields]
  | cons argument labels ih => simp [complete_fields, Complete, ih]

theorem Row.complete_node (row : Row) : Complete row.node := by
  simp [Row.node, Complete, complete_fields, complete_strings]

theorem strings_nesting (labels : List (Str × Str)) :
    fields_nesting (labels.map fun argument => (argument.1, .String argument.2)) = 0 := by
  induction labels with
  | nil => simp [fields_nesting]
  | cons argument labels ih => simp [fields_nesting, nesting, ih]

theorem plain_strings (number : Str → Option ParserNumber) (labels : List (Str × Str))
    (values : Map) : ∃ values', plain_fields number
      (labels.map fun argument => (argument.1, .String argument.2)) values = some values' := by
  induction labels generalizing values with
  | nil => exact ⟨values, by simp [plain_fields]⟩
  | cons argument labels ih => simpa [plain_fields, plain] using ih _

/-- The documents of rows are within the limits of the decoder. -/
theorem Row.read {decoder : Decoder} (hdecoder : Faithful decoder) {text : Str} {row : Row}
    (h : Document text row.tree) : decoder.from_str text = (row.node, true) := by
  obtain ⟨values, hvalues⟩ := plain_strings decoder.number row.labels []
  have hplain : plain decoder.number row.tree =
      some (.Object (Map.insert [] row.name (.Object values))) := by
    simp [Row.tree, plain, plain_fields, hvalues]
  have hnesting : nesting row.tree ≤ 127 := by
    simp [Row.tree, nesting, fields_nesting, strings_nesting]
  rw [hdecoder.reads _ _ _ h hnesting hplain, Row.node_tree]

/-- The fragment of a line, and the method that it is read as. -/
theorem from_str_ok {decoder : Decoder} (hdecoder : Faithful decoder) {text : Str}
    {method : Str × MethodSignature} : from_str decoder text = .ok method ↔
      ∃ row : Row, row.Valid ∧ Document text row.tree ∧ method = row.entry := by
  constructor
  · intro hread
    obtain ⟨method, hmethod, hread⟩ := except_bind_ok.1 hread
    split at hread
    · rename_i hend
      obtain rfl := Except.ok.inj hread
      obtain ⟨row, hvalid, hnode, rfl⟩ := deserialize_method_ok.1 hmethod
      have hslice : decoder.from_slice (bytes text) = (row.node, true) := Prod.ext hnode hend
      obtain ⟨s, tree, hbytes, hdocument, htree⟩ := hdecoder.sound _ _ hslice row.complete_node
      obtain rfl : s = text := by
        rw [← decode_utf8_bytes s, ← hbytes, decode_utf8_bytes]
      rw [Row.tree_of_node htree] at hdocument
      exact ⟨row, hvalid, hdocument, rfl⟩
    · cases hread
  · intro h
    obtain ⟨row, hvalid, hdocument, rfl⟩ := h
    refine except_bind_ok.2 ⟨row.entry, ?_, ?_⟩
    · rw [Row.read hdecoder hdocument]
      exact deserialize_method_ok.2 ⟨row, hvalid, rfl, rfl⟩
    · rw [Row.read hdecoder hdocument, if_pos rfl]

/-! ## The lines -/

/-- The line stands for the row: a tab, and the only member of an object. -/
def Stands (row : Row) (line : Str) : Prop :=
  row.Valid ∧ ∃ fragment, line = '\t' :: fragment ∧ Document (wrapped fragment) row.tree

variable {decoder : Decoder} {methods after : BTreeMap Str MethodSignature}

theorem read_line_ok (hdecoder : Faithful decoder) {line : Str} :
    read_line decoder methods line = .ok after ↔ methods.len ≠ 128 ∧ ∃ row : Row, Stands row line ∧
      row.name ∉ methods.keys ∧ after = methods.insert row.name row.signature := by
  unfold read_line
  constructor
  · intro hread
    split at hread
    · cases hread
    · rename_i hlen
      split at hread
      · rename_i fragment
        split at hread
        · cases hread
        · rename_i name signature hmethod
          split at hread
          · cases hread
          · rename_i hnew
            rw [BTreeMap.contains_key_iff] at hnew
            obtain ⟨row, hvalid, hdocument, hentry⟩ := (from_str_ok hdecoder).1 hmethod
            obtain ⟨rfl, rfl⟩ := Prod.mk.inj hentry
            exact ⟨hlen, row, ⟨hvalid, fragment, rfl, hdocument⟩, hnew, (Except.ok.inj hread).symm⟩
      · cases hread
  · intro h
    obtain ⟨hlen, row, ⟨hvalid, fragment, rfl, hdocument⟩, hnew, rfl⟩ := h
    have hmethod := (from_str_ok hdecoder).2 ⟨row, hvalid, hdocument, rfl⟩
    have hcontains : ¬ methods.contains_key row.name = true := by
      rwa [BTreeMap.contains_key_iff]
    simp [hlen, hmethod, Row.entry, hcontains]

/-- The loop reads lines that stand for rows with different methods, and no others. -/
theorem read_lines_ok (hdecoder : Faithful decoder) {lines : List Str} (h : methods.len ≤ 128) :
    read_lines decoder methods lines = .ok after ↔ ∃ rows : List Row,
      List.Forall₂ Stands rows lines ∧ BTreeMap.Fits 128 (rows.map Row.entry) methods ∧
        after = methods.extend (rows.map Row.entry) := by
  induction lines generalizing methods with
  | nil =>
    unfold read_lines
    constructor
    · intro hread
      exact ⟨[], .nil, BTreeMap.fits_nil.2 h, (Except.ok.inj hread).symm⟩
    · intro hread
      obtain ⟨rows, hstands, -, rfl⟩ := hread
      cases hstands
      rfl
  | cons line lines ih =>
    unfold read_lines
    rw [except_bind_ok]
    constructor
    · intro hread
      obtain ⟨middle, hline, hread⟩ := hread
      obtain ⟨hlen, row, hstands, hnew, rfl⟩ := (read_line_ok hdecoder).1 hline
      have hinsert : (methods.insert row.name row.signature).len ≤ 128 := by
        rw [BTreeMap.len_insert hnew]
        omega
      obtain ⟨rows, hrows, hfits, rfl⟩ := (ih hinsert).1 hread
      refine ⟨row :: rows, .cons hstands hrows, ?_, rfl⟩
      exact BTreeMap.fits_cons.2 ⟨by omega, hnew, hfits⟩
    · intro hread
      obtain ⟨rows, hstands, hfits, rfl⟩ := hread
      cases hstands with
      | cons hrow hrows =>
        rename_i row rows
        obtain ⟨hlen, hnew, hrest⟩ := BTreeMap.fits_cons.1 hfits
        have hinsert : (methods.insert row.name row.signature).len ≤ 128 := by
          rw [BTreeMap.len_insert hnew]
          omega
        refine ⟨_, (read_line_ok hdecoder).2 ⟨by omega, row, hrow, hnew, rfl⟩, ?_⟩
        exact (ih hinsert).2 ⟨rows, hrows, hrest, rfl⟩

end openwrt_mcp_device_codec.describe
