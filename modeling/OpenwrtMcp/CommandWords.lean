-- The words of a command, as they are split on the device: those of the definition, and in the
-- places of its parameters what the client gave for them. No text of a client is a second word or a
-- second member of the object that is sent.
import OpenwrtMcp.ActionCommands
import OpenwrtMcp.Decimals
import OpenwrtMcp.JsonDecoder
import OpenwrtMcp.JsonRoundTrip

open json json.grammar maps openwrt_mcp_core posix programs serde_json text

namespace openwrt_mcp_device_codec

/-! ## The object that is read back -/

/-- A number as `serde_json` keeps it: one that is not negative is unsigned. -/
def canonical : Value → Value
  | .Number (.NegInt n) => from_i64 n
  | v => v

/-- The integers of 64 bits are read from the text that `to_string` gives them. -/
structure ReadsIntegers (number : Str → Option ParserNumber) : Prop where
  unsigned : ∀ n : UInt64, number (decimal n.toNat) = some (.U64 n)
  negative : ∀ n : Int64, n < 0 → number (signed_decimal n.toInt) = some (.I64 n)

/-- The numbers that are an integer of 64 bits. -/
def integer_number (lexeme : Str) : Option ParserNumber :=
  (decimals.parse_signed lexeme).bind fun n =>
    if 0 ≤ n then
      if n < 2 ^ 64 then some (.U64 (UInt64.ofNat n.toNat)) else none
    else if -2 ^ 63 ≤ n then some (.I64 (Int64.ofInt n)) else none

theorem integer_number_reads : ReadsIntegers integer_number where
  unsigned n := by
    have hlt := n.toNat_lt
    have hnonneg : (0 : Int) ≤ (n.toNat : Int) := Int.natCast_nonneg _
    have hsmall : (n.toNat : Int) < 2 ^ 64 := by omega
    rw [integer_number, decimals.parse_signed_decimal, Option.bind_some, if_pos hnonneg,
      if_pos hsmall, Int.toNat_natCast, UInt64.ofNat_toNat]
  negative n hn := by
    have hneg : ¬ (0 : Int) ≤ n.toInt := by
      have hlt := Int64.lt_iff_toInt_lt.1 hn
      rw [Int64.toInt_zero] at hlt
      omega
    have hlow : -2 ^ 63 ≤ n.toInt := n.le_toInt
    rw [integer_number, decimals.parse_signed_signed_decimal, Option.bind_some, if_neg hneg,
      if_pos hlow, Int64.ofInt_toInt]

/-- The text is one document, and a decoder of integers reads this object from it. -/
def ReadAs (text : Str) (fields : Map) : Prop :=
  ∃ tree, grammar.Document text tree ∧ ∀ number, ReadsIntegers number →
    plain number tree = some (.Object fields)

theorem numeric_of_valid {kind : ParameterKind} {v : Value} (h : valid_type true kind v = true) :
    Numeric v := by
  cases kind with
  | String =>
    obtain ⟨s, rfl⟩ := typed_of_valid_type h
    simp [Numeric]
  | Integer =>
    obtain ⟨number, n, rfl, hn⟩ := typed_of_valid_type h
    cases number with
    | PosInt m => simp [Numeric]
    | NegInt m => simp [Numeric]
    | Float s => exact absurd rfl (hn.1 s)
  | Boolean =>
    obtain ⟨b, rfl⟩ := typed_of_valid_type h
    simp [Numeric]

theorem toInt_of_nonneg {m : Int64} (h : 0 ≤ m.toInt) : m.toInt = (m.toUInt64.toNat : Int) := by
  have hsame : m.toBitVec.toNat = m.toUInt64.toNat := rfl
  simp only [Int64.toInt, BitVec.toInt_eq_toNat_cond, hsame] at h ⊢
  split at h <;> omega

theorem plain_number {number : Str → Option ParserNumber} (hnumber : ReadsIntegers number)
    {n : Number} (hfloat : ∀ s, n ≠ .Float s) :
    plain number (tree (.Number n)) = some (canonical (.Number n)) := by
  rw [tree, plain]
  cases n with
  | Float s => exact absurd rfl (hfloat s)
  | PosInt m => simp [Number.to_string, hnumber.unsigned, number_value, canonical]
  | NegInt m =>
    by_cases hneg : m < 0
    · simp [Number.to_string, hnumber.negative m hneg, number_value, canonical]
    · -- The text has no sign, and so an unsigned number is read.
      have hle : 0 ≤ m := Int64.not_lt.1 hneg
      have hint : 0 ≤ m.toInt := by simpa [Int64.le_iff_toInt_le] using hle
      have hnat : m.toInt.toNat = m.toUInt64.toNat := by
        rw [toInt_of_nonneg hint, Int.toNat_natCast]
      rw [Number.to_string, decimals.signed_decimal_nonneg hint, hnat, hnumber.unsigned]
      simp [number_value, canonical, from_i64, hle]

theorem plain_valid {number : Str → Option ParserNumber} (hnumber : ReadsIntegers number)
    {kind : ParameterKind} {v : Value} (h : valid_type true kind v = true) :
    plain number (tree v) = some (canonical v) := by
  cases kind with
  | String =>
    obtain ⟨s, rfl⟩ := typed_of_valid_type h
    simp [tree, plain, canonical]
  | Integer =>
    obtain ⟨n, _, rfl, hn⟩ := typed_of_valid_type h
    exact plain_number hnumber hn.1
  | Boolean =>
    obtain ⟨b, rfl⟩ := typed_of_valid_type h
    simp [tree, plain, canonical]

section
variable {fields : Map}

theorem numeric_of_fields (h : ∀ e ∈ fields, ∃ kind, valid_type true kind e.2 = true) :
    numeric_fields fields := by
  induction fields with
  | nil => simp [numeric_fields]
  | cons e fields ih =>
    rw [List.forall_mem_cons] at h
    obtain ⟨kind, htype⟩ := h.1
    rw [numeric_fields]
    exact ⟨numeric_of_valid htype, ih h.2⟩

/-- The members come in the order of their keys, and so each is put behind the others. -/
theorem plain_fields_valid {number : Str → Option ParserNumber} (hnumber : ReadsIntegers number)
    (h : ∀ e ∈ fields, ∃ kind, valid_type true kind e.2 = true)
    (hsorted : (fields.map Prod.fst).Pairwise (· < ·)) {values : Map}
    (hlater : ∀ k ∈ values.keys, ∀ e ∈ fields, k < e.1) :
    plain_fields number (field_trees fields) values =
      some (values ++ fields.map fun e => (e.1, canonical e.2)) := by
  induction fields generalizing values with
  | nil => simp [field_trees, plain_fields]
  | cons e fields ih =>
    rw [List.forall_mem_cons] at h
    rw [List.map_cons, List.pairwise_cons] at hsorted
    obtain ⟨kind, htype⟩ := h.1
    have hfirst : ∀ k ∈ values.keys, k < e.1 := fun k hk => hlater k hk e List.mem_cons_self
    rw [field_trees, plain_fields, plain_valid hnumber htype, Option.bind_some,
      insert_last _ hfirst, ih h.2 hsorted.2]
    · simp
    · intro k hk next hnext
      rw [Map.keys, List.map_append, List.mem_append] at hk
      rcases hk with hk | hk
      · exact hlater k hk next (List.mem_cons_of_mem _ hnext)
      · rw [List.map_singleton, List.mem_singleton] at hk
        rw [hk]
        exact hsorted.1 next.1 (List.mem_map_of_mem hnext)

theorem read_as_encode (h : ∀ e ∈ fields, ∃ kind, valid_type true kind e.2 = true)
    (hsorted : (fields.map Prod.fst).Pairwise (· < ·)) :
    ReadAs (encode (.Object fields)) (fields.map fun e => (e.1, canonical e.2)) := by
  have hnumeric : Numeric (.Object fields) := by
    rw [Numeric]
    exact numeric_of_fields h
  refine ⟨_, document_encode hnumeric, ?_⟩
  intro number hnumber
  rw [tree, plain, plain_fields_valid hnumber h hsorted (by simp [Map.keys])]
  rfl

theorem get_canonical (key : Str) :
    Map.get (fields.map fun e => (e.1, canonical e.2)) key = (fields.get key).map canonical := by
  unfold Map.get
  induction fields with
  | nil => rfl
  | cons e fields ih =>
    rw [List.map_cons, List.lookup_cons, List.lookup_cons, ih]
    split
    · rfl
    · rfl

end

theorem sorted_sent (values : Map) (arguments : BTreeMap Str Value) :
    ((sent values arguments.entries).map Prod.fst).Pairwise (· < ·) := by
  refine arguments.sorted.sublist ?_
  unfold sent
  generalize arguments.entries = entries
  induction entries with
  | nil => exact .slnil
  | cons e entries ih =>
    rw [List.map_cons]
    cases hgiven : given values e.2 with
    | none => simpa [hgiven] using ih.cons e.1
    | some v => simpa [hgiven] using ih.cons_cons e.1

/-! ## The words -/

/-- The command has the words of the definition, and where the definition refers to a parameter,
what the client gave for it. -/
def Renders (values : Map) : Action → CommandSpec → Prop
  | .Process program args, command => command.program = program ∧
      List.Forall₂ (fun arg word => given_text values arg = some word) args command.arguments
  | .Ubus object method arguments, command => ∃ json fields,
      command = ⟨"/bin/ubus".toList, ["-S".toList, "call".toList, object, method, json]⟩ ∧
      ReadAs json fields ∧ (fields.map Prod.fst).Pairwise (· < ·) ∧
      ∀ key, fields.get key = ((arguments.get key).bind (given values)).map canonical
  | _, _ => False

/-- The commands are the same but for the words, or the members of the object, that refer to the
parameter. -/
def SameBut (name : Str) : Action → CommandSpec → CommandSpec → Prop
  | .Process _ args, command, other => command.program = other.program ∧
      command.arguments.length = other.arguments.length ∧
      ∀ (i : Nat) (arg : Str), args[i]? = some arg → parameter_reference arg ≠ some name →
        command.arguments[i]? = other.arguments[i]?
  | .Ubus _ _ arguments, command, other => ∃ words json json' fields fields',
      command = ⟨other.program, words ++ [json]⟩ ∧ other.arguments = words ++ [json'] ∧
      ReadAs json fields ∧ ReadAs json' fields' ∧
      ∀ key, fields.get key = fields'.get key ∨ ∃ literal, arguments.get key = some literal ∧
        (as_str literal).bind parameter_reference = some name
  | _, _, _ => False

section
variable {values values' : Map} {name : Str}

theorem given_congr (h : ∀ other, other ≠ name → values.get other = values'.get other)
    {literal : Value} (hno : (as_str literal).bind parameter_reference ≠ some name) :
    given values literal = given values' literal := by
  unfold given
  cases hreference : (as_str literal).bind parameter_reference with
  | none => rfl
  | some other =>
    have hne : other ≠ name := by
      intro heq
      rw [hreference, heq] at hno
      exact hno rfl
    exact h other hne

theorem given_text_congr (h : ∀ other, other ≠ name → values.get other = values'.get other)
    {arg : Str} (hno : parameter_reference arg ≠ some name) :
    given_text values arg = given_text values' arg := by
  unfold given_text
  cases hreference : parameter_reference arg with
  | none => rfl
  | some other =>
    have hne : other ≠ name := by
      intro heq
      rw [hreference, heq] at hno
      exact hno rfl
    simp only [h other hne]

theorem forall₂_getElem {α β : Type} {R : α → β → Prop} {xs : List α} {ys : List β}
    (h : List.Forall₂ R xs ys) {i : Nat} {x : α} (hx : xs[i]? = some x) :
    ∃ y, ys[i]? = some y ∧ R x y := by
  induction h generalizing i with
  | nil => simp at hx
  | @cons a b as bs hab _ ih =>
    cases i with
    | zero =>
      rw [List.getElem?_cons_zero] at hx
      exact ⟨b, rfl, Option.some.inj hx ▸ hab⟩
    | succ i => exact ih hx

/-- A parameter has no other place than the ones that refer to it. -/
theorem Renders.same_but {action : Action} {command command' : CommandSpec}
    (h : Renders values action command) (h' : Renders values' action command')
    (hsame : ∀ other, other ≠ name → values.get other = values'.get other) :
    SameBut name action command command' := by
  cases action with
  | ApkInstalledPage => cases h
  | OpkgStatusPage => cases h
  | Process program args =>
    obtain ⟨hprogram, hwords⟩ := h
    obtain ⟨hprogram', hwords'⟩ := h'
    refine ⟨hprogram.trans hprogram'.symm, hwords.length_eq.symm.trans hwords'.length_eq, ?_⟩
    intro i arg harg hno
    obtain ⟨word, hword, hgiven⟩ := forall₂_getElem hwords harg
    obtain ⟨word', hword', hgiven'⟩ := forall₂_getElem hwords' harg
    rw [given_text_congr hsame hno, hgiven'] at hgiven
    rw [hword, hword', Option.some.inj hgiven]
  | Ubus object method arguments =>
    obtain ⟨json, fields, rfl, hread, -, hget⟩ := h
    obtain ⟨json', fields', rfl, hread', -, hget'⟩ := h'
    refine ⟨["-S".toList, "call".toList, object, method], json, json', fields, fields', rfl, rfl,
      hread, hread', ?_⟩
    intro key
    rw [hget, hget']
    cases hliteral : arguments.get key with
    | none => exact .inl rfl
    | some literal =>
      by_cases hno : (as_str literal).bind parameter_reference = some name
      · exact .inr ⟨literal, rfl, hno⟩
      · rw [Option.bind_some, Option.bind_some, given_congr hsame hno]
        exact .inl rfl

end

/-- A command that is compiled is the one of its action, and it renders the definition. -/
theorem renders_of_compile (writer : Writer) {operation : Operation}
    (hvalid : operation.validate = .ok ()) {input : Value} {action : PreparedAction}
    (hprepare : operation.prepare input = .ok action) {command : CommandSpec}
    (hcompile : compile_action writer action = .ok command) :
    command.line_length ≤ MAX_COMMAND_BYTES ∧
      ∃ values, input = .Object values ∧ Renders values operation.action command := by
  have hpage : action.package_page = none := by
    cases action with
    | ApkInstalledPage cursor => cases hcompile
    | OpkgStatusPage cursor => cases hcompile
    | Ubus object method arguments => rfl
    | Process program args => rfl
  obtain ⟨hchecked, spec, hspec⟩ := checked_of_prepare hvalid hprepare hpage
  rw [compile_action_eq writer hchecked hspec] at hcompile
  split at hcompile
  · rename_i hle
    have heq := Except.ok.inj hcompile
    subst heq
    refine ⟨hle, ?_⟩
    obtain ⟨values, rfl, htaken, haction⟩ := Operation.taken_of_prepare hvalid hprepare
    refine ⟨values, rfl, ?_⟩
    cases hkind : operation.action with
    | ApkInstalledPage =>
      rw [hkind] at haction
      obtain ⟨cursor, -, heq⟩ := except_bind_ok.1 haction
      rw [← Except.ok.inj heq] at hpage
      cases hpage
    | OpkgStatusPage =>
      rw [hkind] at haction
      obtain ⟨cursor, -, heq⟩ := except_bind_ok.1 haction
      rw [← Except.ok.inj heq] at hpage
      cases hpage
    | Process program args =>
      rw [hkind] at haction
      obtain ⟨words, hwords, heq⟩ := except_bind_ok.1 haction
      rw [← Except.ok.inj heq] at hspec
      rw [← Option.some.inj hspec]
      exact ⟨rfl, prepare_args_eq_ok.1 hwords⟩
    | Ubus object method arguments =>
      rw [hkind] at haction
      obtain ⟨-, -, -, kinds, -, -, -, hreviewed⟩ := Operation.call_of_validate hvalid hkind
      have hubus : operation.action.is_ubus = true := by
        rw [hkind]
        rfl
      have hvalues : ∀ e ∈ sent values arguments.entries, ∃ kind,
        valid_type true kind e.2 = true := by
        intro e he
        obtain ⟨-, kind, -, htype⟩ := reviewed_sent hreviewed hubus htaken he
        exact ⟨kind, htype⟩
      have hsorted := sorted_sent values arguments
      rw [← Except.ok.inj haction, prepare_arguments_sent] at hspec
      rw [← Option.some.inj hspec]
      refine ⟨_, _, rfl, read_as_encode hvalues hsorted, ?_, ?_⟩
      · rw [List.map_map]
        exact hsorted
      · intro key
        rw [get_canonical, get_sent]
  · cases hcompile

/-- The device splits the line into `exec`, the program and the arguments of the command, with
nothing of them outside of quotes. The words are those of the definition, and what the client gave
for a parameter is one word of a program, or one member of the object of a call, as it was given.
Another value for one parameter changes only the places that refer to it. -/
theorem a_value_of_a_client_is_one_word_or_one_member (writer : Writer) {operation : Operation}
    (hvalid : operation.validate = .ok ()) {input : Value} {action : PreparedAction}
    (hprepare : operation.prepare input = .ok action) {command : CommandSpec}
    (hcompile : compile_action writer action = .ok command) :
    (∃ line, encode_remote command = .ok line ∧
      split line = some (ascii "exec" :: bytes command.program :: command.arguments.map bytes)) ∧
    ∃ values : Map, input = .Object values ∧ Renders values operation.action command ∧
      ∀ (values' : Map) (action' : PreparedAction) (command' : CommandSpec) (name : Str),
        operation.prepare (.Object values') = .ok action' →
        compile_action writer action' = .ok command' →
        (∀ other, other ≠ name → values.get other = values'.get other) →
        SameBut name operation.action command command' := by
  obtain ⟨hle, values, rfl, hrenders⟩ := renders_of_compile writer hvalid hprepare hcompile
  refine ⟨⟨command.line, ?_, command.split_line⟩, values, rfl, hrenders, ?_⟩
  · rw [command.encode_remote_eq, if_pos hle]
  · intro values' action' command' name hprepare' hcompile' hsame
    obtain ⟨-, others, heq, hrenders'⟩ := renders_of_compile writer hvalid hprepare' hcompile'
    rw [Value.Object.inj heq] at hsame
    exact hrenders.same_but hrenders' hsame

/-- A device whose name has quotes, a blank, and what looks like a parameter. -/
def odd_device : Str := "a'b; \"\x7bdevice\x7d\"\\".toList

theorem an_odd_device_is_one_member : ∃ action command line,
    wireless_scan.prepare (.Object [("device".toList, .String odd_device)]) = .ok action ∧
      compile_action at_once action = .ok command ∧ encode_remote command = .ok line ∧
      split line = some (ascii "exec" :: bytes command.program :: command.arguments.map bytes) ∧
      Renders [("device".toList, .String odd_device)] wireless_scan.action command := by
  have hok : wireless_scan.validate.toOption.isSome = true := by decide +kernel
  cases hvalid : wireless_scan.validate with
  | error e =>
    rw [hvalid] at hok
    cases hok
  | ok _ =>
    have hprepare : wireless_scan.prepare (.Object [("device".toList, .String odd_device)]) =
        .ok (.Ubus "iwinfo".toList "scan".toList
          (.Object [("device".toList, .String odd_device)])) := by
      unfold Operation.prepare
      rw [hvalid]
      rfl
    obtain ⟨hchecked, command, hcommand⟩ := checked_of_prepare hvalid hprepare rfl
    have hcompile := compile_action_eq at_once hchecked hcommand
    have hshort : command.line_length ≤ MAX_COMMAND_BYTES := by
      rw [← Option.some.inj hcommand]
      decide
    rw [if_pos hshort] at hcompile
    obtain ⟨⟨line, hline, hsplit⟩, values, heq, hrenders, -⟩ :=
      a_value_of_a_client_is_one_word_or_one_member at_once hvalid hprepare hcompile
    rw [← Value.Object.inj heq] at hrenders
    exact ⟨_, command, line, hprepare, hcompile, hline, hsplit, hrenders⟩

end openwrt_mcp_device_codec
