-- The listing of an object and the observation that it is read as: every order of the methods and
-- of their arguments gives the observation, and no text gives one that it does not list.
import OpenwrtMcp.DescribeRows
import OpenwrtMcp.JsonRoundTrip
import OpenwrtMcp.JsonText
import OpenwrtMcp.OpkgGrammar

open json json.grammar maps openwrt_mcp_core openwrt_mcp_device_codec.packages.opkg programs
  serde_json text

namespace openwrt_mcp_device_codec.describe

/-! ## The listing -/

/-- The labels that are known. -/
def LABELS : List Str :=
  ["String".toList, "Integer".toList, "Boolean".toList, "Array".toList, "Table".toList]

/-- Only a label that is not known gives the type that is not known. -/
theorem kind_of_unknown {label : Str} : kind_of label = .Unknown ↔ label ∉ LABELS := by
  unfold kind_of
  split
  · rename_i h
    simp [h, LABELS]
  split
  · rename_i h
    simp [h, LABELS]
  split
  · rename_i h
    simp [h, LABELS]
  split
  · rename_i h
    simp [h, LABELS]
  split
  · rename_i h
    simp [h, LABELS]
  · simp_all [LABELS]

/-- The row is the method, its arguments in any order. -/
structure Row.Describes (row : Row) (method : Str × MethodSignature) : Prop where
  name : row.name = method.1
  arguments : (row.labels.map typed).Perm method.2.arguments.entries
  labels : ∀ argument ∈ row.labels, valid_label argument.2 = true

/-- The rows are the methods of the object, in any order. -/
def Lists (rows : List Row) (observation : ObjectObservation) : Prop :=
  ∃ methods : List (Str × MethodSignature), methods.Perm observation.methods.entries ∧
    List.Forall₂ Row.Describes rows methods

/-- Eight hexadecimal digits. -/
def ObjectId (id : Str) : Prop := id.length = 8 ∧ ∀ c ∈ id, (hex_digit_value c).isSome

/-- A spelling of the row: behind a tab, the member of a document that is nothing else. -/
def Spelled (row : Row) (line : Str) : Prop :=
  '\n' ∉ line ∧ line.getLast? ≠ some '\r' ∧
    ∃ fragment, line = '\t' :: fragment ∧ Document (wrapped fragment) row.tree

def listing (object : ReviewedObject) (id : Str) (lines : List Str) : Str :=
  joined ((header_start object ++ id) :: lines)

/-! ## The line without white space -/

namespace Row

def value (row : Row) : Value :=
  .Object [(row.name, .Object (row.labels.map fun argument => (argument.1, .String argument.2)))]

def fragment (row : Row) : Str :=
  encode_text row.name ++
    ':' :: encode (.Object (row.labels.map fun argument => (argument.1, .String argument.2)))

def line (row : Row) : Str := '\t' :: row.fragment

theorem wrapped_fragment (row : Row) : wrapped row.fragment = encode row.value := by
  simp [wrapped, fragment, value, encode, encode_fields, commas_cons]

theorem numeric_strings (labels : List (Str × Str)) :
    numeric_fields (labels.map fun argument => (argument.1, .String argument.2)) := by
  induction labels with
  | nil => simp [numeric_fields]
  | cons argument labels ih => simp [numeric_fields, Numeric, ih]

theorem printed_strings (labels : List (Str × Str)) :
    printed_fields (labels.map fun argument => (argument.1, .String argument.2)) := by
  induction labels with
  | nil => simp [printed_fields]
  | cons argument labels ih => simp [printed_fields, Printed, ih]

theorem trees_strings (labels : List (Str × Str)) :
    field_trees (labels.map fun argument => (argument.1, .String argument.2)) =
      labels.map fun argument => (argument.1, .String argument.2) := by
  induction labels with
  | nil => simp [field_trees]
  | cons argument labels ih => simp [field_trees, grammar.tree, ih]

/-- The line of a row is one of its spellings. -/
theorem spelled_line (row : Row) : Spelled row row.line := by
  have hnumeric : Numeric row.value := by
    simp [value, Numeric, numeric_fields, numeric_strings]
  have hprinted : Printed row.value := by
    simp [value, Printed, printed_fields, printed_strings]
  have htree : grammar.tree row.value = row.tree := by
    simp [value, tree, grammar.tree, field_trees, trees_strings]
  have hquiet : Quiet row.fragment := by
    have hwrapped := quiet_encode row.value hprinted
    rw [← wrapped_fragment, wrapped, quiet_cons] at hwrapped
    exact fun c hc => hwrapped.2 c (List.mem_append_left _ hc)
  have hlow : ∀ c : Char, c.toNat < 32 → c ≠ '\t' → c ∉ row.line := by
    intro c hc htab hmem
    rcases List.mem_cons.1 hmem with heq | hmem
    · exact htab heq
    · have := hquiet c hmem
      omega
  refine ⟨hlow _ (by decide) (by decide), ?_, row.fragment, rfl, ?_⟩
  · intro hlast
    exact hlow _ (by decide) (by decide) (List.mem_of_getLast? hlast)
  · rw [wrapped_fragment, ← htree]
    exact document_encode hnumeric

end Row

/-! ## Observations and rows -/

theorem identifier_eq {value : Str} {maximum : Nat} (h : maximum ≤ 128) :
    identifier value maximum = true ↔ len value ≤ maximum ∧ ubus_identifier value = true := by
  simp only [identifier, ubus_identifier, Bool.and_eq_true, decide_eq_true_eq]
  constructor
  · rintro ⟨⟨⟨hne, hlen⟩, hfirst⟩, hall⟩
    exact ⟨hlen, ⟨⟨hne, hlen.trans h⟩, hfirst⟩, hall⟩
  · rintro ⟨hlen, ⟨⟨hne, -⟩, hfirst⟩, hall⟩
    exact ⟨⟨⟨hne, hlen⟩, hfirst⟩, hall⟩

theorem valid_method_iff {method : Str} {signature : MethodSignature} :
    ObjectObservation.valid_method method signature = true ↔ identifier method 128 = true ∧
      signature.arguments.len ≤ 64 ∧
        ∀ argument ∈ signature.arguments.keys, identifier argument 64 = true := by
  simp only [ObjectObservation.valid_method, Bool.and_eq_true, decide_eq_true_eq, List.all_eq_true,
    identifier_eq (Nat.le_refl 128), identifier_eq (show 64 ≤ 128 by decide), and_assoc]
  rfl

theorem validate_ok {observation : ObjectObservation} :
    observation.validate = .ok () ↔ observation.methods.len ≤ 128 ∧
      ∀ method ∈ observation.methods.entries,
        ObjectObservation.valid_method method.1 method.2 = true := by
  unfold ObjectObservation.validate
  by_cases hlen : observation.methods.len > MAX_OBSERVED_METHODS
  · have hover : ¬ observation.methods.len ≤ 128 := Nat.not_le_of_lt hlen
    simp [hlen, hover]
  · have hunder : observation.methods.len ≤ 128 := Nat.le_of_not_lt hlen
    rw [if_neg hlen]
    by_cases hall : (observation.methods.entries.all fun e =>
        ObjectObservation.valid_method e.1 e.2) = true
    · rw [if_pos hall]
      simpa [hunder] using hall
    · rw [if_neg hall]
      simp only [reduceCtorEq, false_iff, not_and]
      intro _ hvalid
      exact hall (List.all_eq_true.2 hvalid)

variable {row : Row} {rows : List Row} {object : ReviewedObject} {observation : ObjectObservation}

theorem Row.Describes.entry {method : Str × MethodSignature} (h : row.Describes method) :
    row.entry = method := by
  obtain ⟨name, ⟨arguments⟩⟩ := method
  rw [Row.entry, Row.signature, h.name, BTreeMap.collect_eq h.arguments]

theorem Row.Valid.describes (h : row.Valid) : row.Describes row.entry where
  name := rfl
  arguments := by
    have honce : ((row.labels.map typed).map Prod.fst).Nodup := by
      rw [keys_typed]
      exact h.once
    exact (BTreeMap.collect_perm honce).symm
  labels argument hargument := (h.checked argument hargument).2

theorem Row.Valid.method (h : row.Valid) :
    ObjectObservation.valid_method row.entry.1 row.entry.2 = true := by
  have hperm := h.describes.arguments
  rw [valid_method_iff]
  refine ⟨h.name, ?_, ?_⟩
  · have hlength := hperm.length_eq
    rw [List.length_map] at hlength
    exact hlength.symm.trans_le h.count
  · intro argument hargument
    have hkeys := (hperm.map Prod.fst).mem_iff.2 hargument
    rw [keys_typed] at hkeys
    obtain ⟨label, hlabel, rfl⟩ := List.mem_map.1 hkeys
    exact (h.checked label hlabel).1

theorem Row.Describes.valid {method : Str × MethodSignature} (h : row.Describes method)
    (hmethod : ObjectObservation.valid_method method.1 method.2 = true) : row.Valid := by
  obtain ⟨hname, hcount, harguments⟩ := valid_method_iff.1 hmethod
  have hkeys := h.arguments.map Prod.fst
  rw [keys_typed] at hkeys
  refine ⟨h.name ▸ hname, ?_, ?_, ?_⟩
  · have hlength := h.arguments.length_eq
    rw [List.length_map] at hlength
    exact hlength ▸ hcount
  · intro argument hargument
    have hmem := hkeys.mem_iff.1 (List.mem_map_of_mem hargument)
    exact ⟨harguments _ hmem, h.labels argument hargument⟩
  · exact hkeys.nodup_iff.2 method.2.arguments.nodup_keys

theorem Lists.entries (h : Lists rows observation) :
    (rows.map Row.entry).Perm observation.methods.entries := by
  obtain ⟨methods, hperm, hdescribes⟩ := h
  have heq : List.Forall₂ (· = ·) (rows.map Row.entry) methods :=
    List.forall₂_map_left_iff.2 (hdescribes.imp fun _ _ hrow => hrow.entry)
  rw [List.forall₂_eq_eq_eq] at heq
  rw [heq]
  exact hperm

theorem Lists.valid (h : Lists rows observation) (hvalid : observation.validate = .ok ()) :
    ∀ row ∈ rows, row.Valid := by
  obtain ⟨methods, hperm, hdescribes⟩ := h
  intro row hrow
  obtain ⟨i, hi, rfl⟩ := List.getElem_of_mem hrow
  have hlength := hdescribes.length_eq
  have hmethod := hdescribes.get hi (hlength ▸ hi)
  refine Row.Describes.valid hmethod ((validate_ok.1 hvalid).2 _ ?_)
  exact hperm.mem_iff.1 (List.getElem_mem _)

/-- The methods of the rows are what is observed, and they are few enough. -/
theorem Lists.collect (h : Lists rows observation) (hvalid : observation.validate = .ok ()) :
    BTreeMap.Fits 128 (rows.map Row.entry) .empty ∧
      BTreeMap.collect (rows.map Row.entry) = observation.methods := by
  have hperm := h.entries
  refine ⟨.of_empty ?_ ?_, BTreeMap.collect_eq hperm⟩
  · rw [hperm.length_eq]
    exact (validate_ok.1 hvalid).1
  · exact (hperm.map Prod.fst).nodup_iff.2 observation.methods.nodup_keys

/-- Valid rows of different methods are what is observed. -/
theorem lists_collect (object : ReviewedObject) (hvalid : ∀ row ∈ rows, row.Valid)
    (hfits : BTreeMap.Fits 128 (rows.map Row.entry) .empty) :
    Lists rows ⟨object, .collect (rows.map Row.entry)⟩ ∧
      ObjectObservation.validate ⟨object, .collect (rows.map Row.entry)⟩ = .ok () := by
  have hperm := BTreeMap.collect_perm hfits.once
  constructor
  · refine ⟨rows.map Row.entry, hperm.symm, ?_⟩
    rw [List.forall₂_map_right_iff, List.forall₂_same]
    exact fun row hrow => (hvalid row hrow).describes
  · rw [validate_ok]
    refine ⟨?_, ?_⟩
    · exact hperm.length_eq.trans_le (by simpa [BTreeMap.empty, BTreeMap.len] using hfits.count)
    · intro method hmethod
      obtain ⟨row, hrow, rfl⟩ := List.mem_map.1 (hperm.mem_iff.1 hmethod)
      exact (hvalid row hrow).method

/-! ## The whole text -/

theorem isPrefixOf?_append (s t : Str) : s.isPrefixOf? (s ++ t) = some t := by
  induction s with
  | nil => rfl
  | cons c s ih => simp [List.isPrefixOf?, ih]

theorem hexdigit_low {b : UInt8} (h : is_ascii_hexdigit b = true) : b.toNat < 128 := by
  simp only [is_ascii_hexdigit, is_ascii_digit, Bool.or_eq_true, Bool.and_eq_true,
    decide_eq_true_eq, UInt8.le_iff_toNat_le] at h
  have hconst : (57 : UInt8).toNat = 57 ∧ (102 : UInt8).toNat = 102 ∧ (70 : UInt8).toNat = 70 := by
    decide
  omega

theorem hexdigit_of_value {c : Char} (h : (hex_digit_value c).isSome) :
    c.toNat < 128 ∧ is_ascii_hexdigit (UInt8.ofNat c.toNat) = true := by
  have hrange : (48 ≤ c.toNat ∧ c.toNat ≤ 57) ∨ (97 ≤ c.toNat ∧ c.toNat ≤ 102) ∨
      (65 ≤ c.toNat ∧ c.toNat ≤ 70) := by
    unfold hex_digit_value at h
    split at h
    · rename_i hdigit
      exact .inl (is_digit_iff.1 hdigit)
    split at h
    · exact .inr (.inl ‹_›)
    split at h
    · exact .inr (.inr ‹_›)
    · cases h
  have hlow : c.toNat < 128 := by omega
  refine ⟨hlow, ?_⟩
  simp only [is_ascii_hexdigit, Bool.or_eq_true, Bool.and_eq_true, decide_eq_true_eq,
    digit_iff hlow, UInt8.le_iff_toNat_le, toNat_ofNat_ascii hlow]
  have hconst : (97 : UInt8).toNat = 97 ∧ (102 : UInt8).toNat = 102 ∧ (65 : UInt8).toNat = 65 ∧
      (70 : UInt8).toNat = 70 := by decide
  omega

theorem ObjectId.ascii {id : Str} (h : ObjectId id) :
    ∀ c ∈ id, c.toNat < 128 ∧ is_ascii_hexdigit (UInt8.ofNat c.toNat) = true :=
  fun c hc => hexdigit_of_value (h.2 c hc)

theorem read_header_ok {id : Str} (h : ObjectId id) :
    read_header object (header_start object ++ id) = .ok () := by
  have hlen : len id = 8 := (len_of_ascii fun c hc => (h.ascii c hc).1).trans h.1
  have hall : (bytes id).all is_ascii_hexdigit = true :=
    (bytes_all_iff fun _ => hexdigit_low).2 h.ascii
  unfold read_header
  rw [isPrefixOf?_append]
  simp [hlen, hall]

/-- No line of the listing is cut or shortened. -/
theorem lines_listing (object : ReviewedObject) {id : Str} {spelling : List Str} (hid : ObjectId id)
    (h : List.Forall₂ Spelled rows spelling) :
    lines (listing object id spelling) = (header_start object ++ id) :: spelling := by
  have hspelled : ∀ line ∈ spelling, '\n' ∉ line ∧ line.getLast? ≠ some '\r' := by
    intro line hline
    obtain ⟨i, hi, rfl⟩ := List.getElem_of_mem hline
    have hline := h.get (h.length_eq ▸ hi) hi
    exact ⟨hline.1, hline.2.1⟩
  have hheader : ∀ c : Char, hex_digit_value c = none → c ∉ header_start object →
      c ∉ header_start object ++ id := by
    intro c hc hstart hmem
    rcases List.mem_append.1 hmem with hmem | hmem
    · exact hstart hmem
    · have := hid.2 c hmem
      rw [hc] at this
      cases this
  have hend : '\n' ∉ header_start object ++ id := by
    refine hheader _ (by decide) ?_
    cases object <;> decide
  have hreturn : (header_start object ++ id).getLast? ≠ some '\r' := by
    intro hlast
    refine hheader _ (by decide) ?_ (List.mem_of_getLast? hlast)
    cases object <;> decide
  have hstrip : ∀ line ∈ (header_start object ++ id) :: spelling, strip_return line = line := by
    intro line hline
    have hline : line.getLast? ≠ some '\r' := by
      rcases List.mem_cons.1 hline with rfl | hline
      · exact hreturn
      · exact (hspelled line hline).2
    rw [strip_return, if_neg hline]
  unfold lines listing
  rw [split_terminator_joined, List.map_congr_left hstrip, List.map_id']
  exact List.forall_mem_cons.2 ⟨hend, fun line hline => (hspelled line hline).1⟩

theorem last_byte (s : Str) : (bytes (s ++ ['\n'])).getLast? = some 10 := by
  rw [bytes_append, bytes_low (show '\n'.toNat < 128 by decide), List.getLast?_append]
  rfl

theorem last_byte_listing (object : ReviewedObject) (id : Str) (spelling : List Str) :
    (bytes (listing object id spelling)).getLast? = some 10 := by
  have hjoined : ∀ lines : List Str, lines ≠ [] → (bytes (joined lines)).getLast? = some 10 := by
    intro lines hne
    rw [← List.dropLast_append_getLast hne]
    simp only [joined, List.flatMap_append, List.flatMap_cons, List.flatMap_nil, List.append_nil]
    rw [← List.append_assoc]
    exact last_byte _
  exact hjoined _ (by simp)

variable {decoder : Decoder}

/-- A listing within the limits is read as the observation that it lists. -/
theorem parse_listing (hdecoder : Faithful decoder) {id : Str} {spelling : List Str} {maximum : Nat}
    (hvalid : observation.validate = .ok ()) (hrows : Lists rows observation) (hid : ObjectId id)
    (hspelling : List.Forall₂ Spelled rows spelling)
    (hlen : len (listing observation.object id spelling) ≤ min maximum MAX_PROBE_BYTES) :
    parse_ubus_describe decoder observation.object
      (bytes (listing observation.object id spelling)) maximum = .ok (.Ubus observation) := by
  have hlast := last_byte_listing observation.object id spelling
  have hlines := lines_listing observation.object hid hspelling
  have hne : bytes (listing observation.object id spelling) ≠ [] := by
    intro hnil
    rw [hnil] at hlast
    cases hlast
  have hlimit : ¬ (maximum = 0 ∨ (bytes (listing observation.object id spelling)).length >
      min maximum MAX_PROBE_BYTES) := by
    have hpos := List.length_pos_iff.2 hne
    rw [len] at hlen
    omega
  obtain ⟨hfits, hcollect⟩ := hrows.collect hvalid
  have hstands : List.Forall₂ Stands rows spelling :=
    (List.forall₂_and_left rows spelling).2
      ⟨hrows.valid hvalid, hspelling.imp fun _ _ hline => hline.2.2⟩
  have hread := (read_lines_ok hdecoder (by simp [BTreeMap.empty, BTreeMap.len])).2
    ⟨rows, hstands, hfits, rfl⟩
  unfold parse_ubus_describe
  rw [if_neg hlimit, if_neg hne, if_neg (not_not.2 hlast), from_utf8_eq_some.2 rfl]
  simp only [hlines]
  refine except_bind_ok.2 ⟨(), read_header_ok hid, except_bind_ok.2 ⟨_, hread, ?_⟩⟩
  have hsame : ObjectObservation.mk observation.object
      (.extend .empty (rows.map Row.entry)) = observation := by
    show ObjectObservation.mk observation.object (.collect (rows.map Row.entry)) = observation
    rw [hcollect]
  simp only [hsame]
  refine except_bind_ok.2 ⟨(), ?_, rfl⟩
  rw [hvalid]
  rfl

/-- What is accepted is the listing of the observation. -/
theorem parse_accepted (hdecoder : Faithful decoder) {text header : Str} {rest : List Str}
    {maximum : Nat} {observed : CapabilityObservation} (hlines : lines text = header :: rest)
    (h : parse_ubus_describe decoder object (bytes text) maximum = .ok observed) :
    ∃ rows, List.Forall₂ Stands rows rest ∧
      BTreeMap.Fits 128 (rows.map Row.entry) .empty ∧
        observed = .Ubus ⟨object, .collect (rows.map Row.entry)⟩ := by
  have hne : bytes text ≠ [] := by
    intro hnil
    have htext : text = [] := by
      rw [← decode_utf8_bytes text, hnil]
      rfl
    rw [htext] at hlines
    cases hlines
  unfold parse_ubus_describe at h
  split at h
  · cases h
  split at h
  · cases h
  · rw [from_utf8_eq_some.2 rfl] at h
    simp only [hlines] at h
    obtain ⟨-, -, h⟩ := except_bind_ok.1 h
    obtain ⟨methods, hread, h⟩ := except_bind_ok.1 h
    obtain ⟨-, -, h⟩ := except_bind_ok.1 h
    obtain ⟨rows, hstands, hfits, rfl⟩ :=
      (read_lines_ok hdecoder (by simp [BTreeMap.empty, BTreeMap.len])).1 hread
    exact ⟨rows, hstands, hfits, (Except.ok.inj h).symm⟩

/-- Only an observation that passes its own check is returned. -/
theorem parse_validates {response : List UInt8} {maximum : Nat}
    (h : parse_ubus_describe decoder object response maximum = .ok (.Ubus observation)) :
    observation.validate = .ok () := by
  unfold parse_ubus_describe at h
  split at h
  · cases h
  split at h
  · cases h
  split at h
  · cases h
  split at h
  · cases h
  split at h
  · cases h
  · obtain ⟨-, -, h⟩ := except_bind_ok.1 h
    obtain ⟨methods, -, h⟩ := except_bind_ok.1 h
    obtain ⟨_, hvalid, h⟩ := except_bind_ok.1 h
    cases h
    cases hcheck : ObjectObservation.validate ⟨object, methods⟩ with
    | ok _ => rfl
    | error e =>
      rw [hcheck] at hvalid
      cases hvalid

/-! ## Lines with other members -/

/-- The members that the line has as an object. -/
def Members (line : Str) (members : List (Str × Tree)) : Prop :=
  Document (wrapped line) (.Object members)

/-- White space behind the brace changes nothing. -/
theorem members_of_tab {fragment : Str} {members : List (Str × Tree)}
    (h : Document (wrapped fragment) (.Object members)) : Members ('\t' :: fragment) members := by
  obtain ⟨w, w', s, htext, hw, hw', hreads⟩ := h
  rw [Reads] at hreads
  obtain ⟨v, s', rfl, hv, hfields⟩ := hreads
  have hempty : w = [] := by
    cases w with
    | nil => rfl
    | cons c w =>
      rw [wrapped, List.cons_append, List.cons.injEq] at htext
      have hblank := hw c List.mem_cons_self
      rw [← htext.1] at hblank
      cases hblank
  rw [hempty, List.nil_append, wrapped, List.cons.injEq] at htext
  refine ⟨[], w', '\x7b' :: ('\t' :: v ++ s'), ?_, blank_nil, hw', ?_⟩
  · rw [wrapped, List.cons_append, htext.2]
    rfl
  · rw [Reads]
    refine ⟨'\t' :: v, s', rfl, ?_, hfields⟩
    exact List.forall_mem_cons.2 ⟨by decide, hv⟩

theorem Stands.members {line : Str} {members : List (Str × Tree)} (h : Stands row line)
    (hmembers : Members line members) : members =
      [(row.name, .Object (row.labels.map fun argument => (argument.1, .String argument.2)))] := by
  obtain ⟨-, fragment, rfl, hdocument⟩ := h
  exact Tree.Object.inj (document_unique (members_of_tab hdocument) hmembers)

/-- A line with no member or several, an argument that comes again in a method, or a method that
comes again. -/
def Refused (rest : List Str) : Prop :=
  (∃ line members, line ∈ rest ∧ Members line members ∧ members.length ≠ 1) ∨
    (∃ line members method arguments, line ∈ rest ∧ Members line members ∧
      (method, .Object arguments) ∈ members ∧ ¬ (arguments.map Prod.fst).Nodup) ∨
    ∃ line line' members members' method value value', [line, line'].Sublist rest ∧
      Members line members ∧ Members line' members' ∧ (method, value) ∈ members ∧
        (method, value') ∈ members'

theorem stands_of_mem {rest : List Str} {line : Str} (h : List.Forall₂ Stands rows rest)
    (hline : line ∈ rest) : ∃ row ∈ rows, Stands row line := by
  induction h with
  | nil => cases hline
  | cons hrow _ ih =>
    rcases List.mem_cons.1 hline with rfl | hline
    · exact ⟨_, List.mem_cons_self, hrow⟩
    · obtain ⟨row, hmem, hstands⟩ := ih hline
      exact ⟨row, List.mem_cons_of_mem _ hmem, hstands⟩

/-- Two lines stand for two rows. -/
theorem stands_of_sublist {rest : List Str} {line line' : Str} (h : List.Forall₂ Stands rows rest)
    (hlines : [line, line'].Sublist rest) :
    ∃ row row', [row, row'].Sublist rows ∧ Stands row line ∧ Stands row' line' := by
  induction h with
  | nil => cases hlines
  | cons hrow hrest ih =>
    cases hlines with
    | cons _ hlines =>
      obtain ⟨row, row', hsub, hstands⟩ := ih hlines
      exact ⟨row, row', hsub.cons _, hstands⟩
    | cons_cons _ hlines =>
      obtain ⟨row', hmem, hstands⟩ := stands_of_mem hrest (List.singleton_sublist.1 hlines)
      exact ⟨_, row', (List.singleton_sublist.2 hmem).cons_cons _, hrow, hstands⟩

theorem not_refused {rest : List Str} (h : List.Forall₂ Stands rows rest)
    (honce : ((rows.map Row.entry).map Prod.fst).Nodup) : ¬ Refused rest := by
  rintro (⟨line, members, hline, hmembers, hlength⟩ |
    ⟨line, members, method, arguments, hline, hmembers, hmethod, hagain⟩ |
    ⟨line, line', members, members', method, value, value', hlines, hmembers, hmembers', hmethod,
      hmethod'⟩)
  · obtain ⟨row, -, hstands⟩ := stands_of_mem h hline
    rw [hstands.members hmembers] at hlength
    exact hlength rfl
  · obtain ⟨row, -, hstands⟩ := stands_of_mem h hline
    rw [hstands.members hmembers, List.mem_singleton, Prod.mk.injEq, Tree.Object.injEq] at hmethod
    rw [hmethod.2, List.map_map] at hagain
    exact hagain hstands.1.once
  · obtain ⟨row, row', hsub, hstands, hstands'⟩ := stands_of_sublist h hlines
    rw [hstands.members hmembers, List.mem_singleton, Prod.mk.injEq] at hmethod
    rw [hstands'.members hmembers', List.mem_singleton, Prod.mk.injEq] at hmethod'
    have hrows : (rows.map Row.name).Nodup := by
      rwa [List.map_map] at honce
    have hnames := (hsub.map Row.name).nodup hrows
    simp [← hmethod.1, ← hmethod'.1] at hnames

/-! ## A row for every method -/

/-- A label of the type. -/
def label_of : UbusArgumentType → Str
  | .String => "String".toList
  | .Integer => "Integer".toList
  | .Boolean => "Boolean".toList
  | .Array => "Array".toList
  | .Table => "Table".toList
  | .Unknown => "(unknown)".toList

theorem kind_of_label_of (kind : UbusArgumentType) : kind_of (label_of kind) = kind := by
  cases kind <;> decide

theorem valid_label_of (kind : UbusArgumentType) : valid_label (label_of kind) = true := by
  cases kind <;> decide

def row_of (method : Str × MethodSignature) : Row :=
  ⟨method.1, method.2.arguments.entries.map fun argument => (argument.1, label_of argument.2)⟩

theorem describes_row_of (method : Str × MethodSignature) : (row_of method).Describes method := by
  refine ⟨rfl, ?_, ?_⟩
  · rw [row_of, List.map_map]
    have hsame : ∀ argument ∈ method.2.arguments.entries,
        (typed ∘ fun argument => (argument.1, label_of argument.2)) argument = argument := by
      intro argument _
      exact Prod.ext rfl (kind_of_label_of argument.2)
    rw [List.map_congr_left hsame, List.map_id']
  · intro argument hargument
    obtain ⟨entry, -, rfl⟩ := List.mem_map.1 hargument
    exact valid_label_of entry.2

/-- Every observation has a listing, in every order of its methods. -/
theorem lists_row_of {methods : List (Str × MethodSignature)}
    (h : methods.Perm observation.methods.entries) : Lists (methods.map row_of) observation := by
  refine ⟨methods, h, ?_⟩
  rw [List.forall₂_map_left_iff, List.forall₂_same]
  exact fun method _ => describes_row_of method

/-! ## The law -/

theorem get_argument {row : Row} (h : row.Valid) {name label : Str}
    (hargument : (name, label) ∈ row.labels) :
    row.signature.arguments.get name = some (kind_of label) := by
  have honce : ((row.labels.map typed).map Prod.fst).Nodup := by
    rw [keys_typed]
    exact h.once
  exact (BTreeMap.get_collect honce).2 (List.mem_map_of_mem hargument)

/-- With a decoder that follows the grammar, a listing is read as the observation, whatever the
order and the spelling of its lines. A text with a method or an argument twice, or with a line of
several methods, is refused. A label that is not known gives no known type, and what is read passes
the check of the core. -/
theorem an_object_is_read_as_it_is_listed {decoder : Decoder} (hdecoder : Faithful decoder) :
    (∀ (observation : ObjectObservation) (rows : List Row) (id : Str) (spelling : List Str)
      (maximum : Nat), observation.validate = .ok () → Lists rows observation → ObjectId id →
        List.Forall₂ Spelled rows spelling →
        len (listing observation.object id spelling) ≤ min maximum MAX_PROBE_BYTES →
        parse_ubus_describe decoder observation.object
          (bytes (listing observation.object id spelling)) maximum = .ok (.Ubus observation)) ∧
    (∀ (observation : ObjectObservation) (methods : List (Str × MethodSignature)),
      methods.Perm observation.methods.entries → Lists (methods.map row_of) observation) ∧
    (∀ row : Row, Spelled row row.line) ∧
    (∀ (object : ReviewedObject) (text header : Str) (rest : List Str) (maximum : Nat),
      lines text = header :: rest → Refused rest →
        ∃ e, parse_ubus_describe decoder object (bytes text) maximum = .error e) ∧
    (∀ (object : ReviewedObject) (text header : Str) (rest : List Str) (maximum : Nat)
      (observed : CapabilityObservation), lines text = header :: rest →
        parse_ubus_describe decoder object (bytes text) maximum = .ok observed →
        ∃ observation rows, observed = .Ubus observation ∧ observation.object = object ∧
          Lists rows observation ∧ List.Forall₂ Stands rows rest ∧
          ∀ row ∈ rows, ∀ name label, (name, label) ∈ row.labels → ∃ signature,
            observation.methods.get row.name = some signature ∧
              signature.arguments.get name = some (kind_of label)) ∧
    (∀ label, kind_of label = .Unknown ↔ label ∉ LABELS) ∧
    ∀ (object : ReviewedObject) (response : List UInt8) (maximum : Nat)
      (observation : ObjectObservation),
      parse_ubus_describe decoder object response maximum = .ok (.Ubus observation) →
        observation.validate = .ok () := by
  refine ⟨?_, ?_, Row.spelled_line, ?_, ?_, fun _ => kind_of_unknown, ?_⟩
  · intro observation rows id spelling maximum hvalid hrows hid hspelling hlen
    exact parse_listing hdecoder hvalid hrows hid hspelling hlen
  · intro observation methods hperm
    exact lists_row_of hperm
  · intro object text header rest maximum hlines hrefused
    cases hparse : parse_ubus_describe decoder object (bytes text) maximum with
    | error e => exact ⟨e, rfl⟩
    | ok observed =>
      obtain ⟨rows, hstands, hfits, -⟩ := parse_accepted hdecoder hlines hparse
      exact absurd hrefused (not_refused hstands hfits.once)
  · intro object text header rest maximum observed hlines hparse
    obtain ⟨rows, hstands, hfits, rfl⟩ := parse_accepted hdecoder hlines hparse
    have hvalid := ((List.forall₂_and_left rows rest).1 hstands).1
    refine ⟨_, rows, rfl, rfl, (lists_collect object hvalid hfits).1, hstands, ?_⟩
    intro row hrow name label hargument
    exact ⟨row.signature, (BTreeMap.get_collect hfits.once).2 (List.mem_map_of_mem hrow),
      get_argument (hvalid row hrow) hargument⟩
  · intro object response maximum observation hparse
    exact parse_validates hparse

/-- A row with an argument of each kind. -/
def every_kind : Row :=
  ⟨"set".toList, [("name".toList, "String".toList), ("size".toList, "Integer".toList),
    ("on".toList, "Boolean".toList), ("list".toList, "Array".toList),
    ("map".toList, "Table".toList),
    ("other".toList, "(unknown)".toList)]⟩

def two_methods : List Row := [every_kind, ⟨"board".toList, []⟩]

def two_methods_observed : ObjectObservation := ⟨.System, .collect (two_methods.map Row.entry)⟩

set_option maxRecDepth 8000 in
theorem two_methods_are_read : Faithful (grammar_decoder unsigned_number) ∧
    parse_ubus_describe (grammar_decoder unsigned_number) .System
      (bytes (listing .System "0a1B2c3d".toList (two_methods.map Row.line))) 65536 =
        .ok (.Ubus two_methods_observed) := by
  have hfaithful := grammar_decoder_faithful unsigned_number
  have hvalid : ∀ row ∈ two_methods, row.Valid := by
    rw [two_methods, List.forall_mem_cons, List.forall_mem_singleton]
    constructor
    · exact ⟨by decide, by decide, by unfold Checked; decide, by decide⟩
    · exact ⟨by decide, by decide, by simp, by decide⟩
  have hfits : BTreeMap.Fits 128 (two_methods.map Row.entry) .empty :=
    .of_empty (by decide) (by decide)
  obtain ⟨hlists, hcheck⟩ := lists_collect .System hvalid hfits
  refine ⟨hfaithful, ?_⟩
  refine (an_object_is_read_as_it_is_listed hfaithful).1 two_methods_observed two_methods _ _ _
    hcheck
    hlists ?_ ?_ ?_
  · exact ⟨by decide, by simp [hex_digit_value]⟩
  · rw [List.forall₂_map_right_iff, List.forall₂_same]
    exact fun row _ => row.spelled_line
  · decide

end openwrt_mcp_device_codec.describe
