-- An action that was prepared from an accepted operation is a command, unless the command is too
-- long: what the core accepts, the capability and the codec accept too.
import OpenwrtMcp.CommandLaws
import OpenwrtMcp.PreparedArguments

open json maps openwrt_mcp_core posix programs text

namespace openwrt_mcp_device_codec

/-! ## The command of an action -/

/-- The command of an action, without any limit. -/
def CommandSpec.of : PreparedAction → Option CommandSpec
  | .Ubus object method arguments =>
    some ⟨"/bin/ubus".toList, ["-S".toList, "call".toList, object, method, encode arguments]⟩
  | .Process program args => some ⟨program, args⟩
  | _ => none

/-- What is checked of an action. -/
def Checked : PreparedAction → Prop
  | .Ubus object method arguments => identifier object 128 = true ∧ identifier method 128 = true ∧
      arguments_valid arguments = true
  | .Process program args => program_path program = true ∧ args.length ≤ 64 ∧
      ∀ value ∈ args, len value ≤ 1024 ∧ '\x00' ∉ value
  | _ => False

theorem Writer.to_writer_writes (writer : Writer) (value : Value) :
    Writes (writer.to_writer · value) (bytes (encode value)) := by
  rw [← writer.compact value]
  unfold Writer.to_writer
  induction writer.writes value with
  | nil => exact Writes.nothing
  | cons chunk chunks ih =>
    rw [List.flatten_cons]
    simp only [List.foldlM_cons]
    exact (Writes.append chunk).bind ih

/-- A word is no longer than its command. -/
theorem CommandSpec.len_le_line_length {command : CommandSpec} {word : Str}
    (h : word ∈ command.words) : len word ≤ command.line_length := by
  have hsum := List.single_le_sum (fun n _ => Nat.zero_le n) _
    (List.mem_map_of_mem (f := CommandSpec.quoted_length) h)
  unfold CommandSpec.line_length
  unfold CommandSpec.quoted_length at hsum ⊢
  omega

/-- A checked action is compiled to its command, and refused when the command is too long. -/
theorem compile_action_eq (writer : Writer) {action : PreparedAction} (hchecked : Checked action)
    {command : CommandSpec} (hcommand : CommandSpec.of action = some command) :
    compile_action writer action =
      if command.line_length ≤ MAX_COMMAND_BYTES then .ok command else .error .InvalidAction := by
  have hsize : ∀ spec : CommandSpec, (if (spec.size.any fun size => size ≤ MAX_COMMAND_BYTES) then
      (.ok spec : Except CodecError CommandSpec) else .error .InvalidAction) =
      if spec.line_length ≤ MAX_COMMAND_BYTES then .ok spec else .error .InvalidAction := by
    intro spec
    simp only [spec.size_le]
  unfold compile_action
  cases action with
  | ApkInstalledPage cursor => cases hcommand
  | OpkgStatusPage cursor => cases hcommand
  | Process program args =>
    obtain ⟨hprogram, hcount, hargs⟩ := hchecked
    have hnone : (args.any fun value => len value > 1024 || '\x00' ∈ value) = false := by
      rw [List.any_eq_false]
      intro value hvalue
      have := hargs value hvalue
      simp [this]
    have hspec : command_of writer (.Process program args) = .ok ⟨program, args⟩ := by
      have hshort : ¬ args.length > 64 := Nat.not_lt.2 hcount
      simp [command_of, hprogram, hshort, hnone]
    rw [hspec, ← Option.some.inj hcommand]
    exact hsize _
  | Ubus object method arguments =>
    obtain ⟨hobject, hmethod, harguments⟩ := hchecked
    have hwrites := writer.to_writer_writes arguments .empty
    have hempty : CommandBuffer.empty.bytes = [] := rfl
    simp only [hempty, List.length_nil, Nat.zero_add, List.nil_append] at hwrites
    have hword : len (encode arguments) ≤ command.line_length := by
      refine CommandSpec.len_le_line_length ?_
      rw [← Option.some.inj hcommand]
      simp [CommandSpec.words]
    have hpassed : (!identifier object 128 || !identifier method 128 ||
        !arguments_valid arguments) = false := by
      simp [hobject, hmethod, harguments]
    split at hwrites
    · obtain ⟨next, hnext, hbytes⟩ := hwrites
      have hspec : command_of writer (.Ubus object method arguments) = .ok command := by
        unfold command_of
        simp only [hpassed, Bool.false_eq_true, if_false]
        refine except_bind_ok.2 ⟨next, hnext, ?_⟩
        rw [from_utf8_eq_some.2 hbytes, ← Option.some.inj hcommand]
      rw [hspec]
      exact hsize _
    · rename_i hlong
      have hmore : ¬ command.line_length ≤ MAX_COMMAND_BYTES := by
        unfold len at hword
        omega
      have hspec : command_of writer (.Ubus object method arguments) = .error .InvalidAction := by
        unfold command_of
        simp only [hpassed, Bool.false_eq_true, if_false, hwrites]
        rfl
      rw [hspec, if_neg hmore]
      rfl

/-! ## The checks agree -/

theorem argument_name_of {value : Str} (h : openwrt_mcp_core.identifier value = true) :
    argument_name value = true := by
  unfold openwrt_mcp_core.identifier at h
  simp only [Bool.and_eq_true, decide_eq_true_eq, List.all_eq_true] at h
  obtain ⟨⟨⟨hne, hlen⟩, hfirst⟩, hall⟩ := h
  unfold argument_name identifier
  simp only [Bool.and_eq_true, decide_eq_true_eq, List.all_eq_true]
  refine ⟨⟨⟨⟨hne, hlen⟩, hfirst⟩, ?_⟩, hall⟩
  intro b hb
  rw [Bool.or_eq_true]
  rcases (Bool.or_eq_true _ _).mp (hall b hb) with hbyte | hbyte
  · exact .inl hbyte
  · rw [of_decide_eq_true hbyte]
    exact .inr (by decide)

theorem argument_value_of {kind : ParameterKind} {value : Value}
    (h : valid_type true kind value = true) : argument_value value = true := by
  cases kind with
  | String =>
    obtain ⟨s, hs, hbounded⟩ := (Option.any_eq_true _ _).1 h
    rw [as_str_eq_some.1 hs]
    exact hbounded
  | Integer =>
    obtain ⟨number, _, rfl, -⟩ := valid_type_integer.1 h
    obtain ⟨n, hn, hrange⟩ := (Option.any_eq_true _ _).1 h
    simp only [Bool.and_eq_true, decide_eq_true_eq] at hrange
    unfold UBUS_INTEGER_MIN UBUS_INTEGER_MAX at hrange
    refine (Option.any_eq_true _ _).2 ⟨n, hn, ?_⟩
    unfold fits_i32
    simp only [Bool.and_eq_true, decide_eq_true_eq]
    omega
  | Boolean =>
    obtain ⟨b, rfl⟩ := typed_of_valid_type h
    rfl

theorem program_path_of {program : Str} (h : valid_program program = true) :
    program_path program = true := by
  unfold valid_program at h
  simp only [Bool.and_eq_true] at h
  obtain ⟨⟨⟨hends, hbounded⟩, hbytes⟩, hparts⟩ := h
  unfold program_path
  simp only [Bool.and_eq_true]
  exact ⟨⟨⟨hends, decide_eq_true (bounded_string_iff.1 hbounded).1⟩, hbytes⟩, hparts⟩

/-- What is prepared from an accepted operation passes the checks of the codec. -/
theorem checked_of_prepare {operation : Operation} (hvalid : operation.validate = .ok ())
    {input : Value} {action : PreparedAction} (hprepare : operation.prepare input = .ok action)
    (hpage : action.package_page = none) :
    Checked action ∧ ∃ command, CommandSpec.of action = some command := by
  obtain ⟨values, rfl, htaken, haction⟩ := Operation.taken_of_prepare hvalid hprepare
  cases hkind : operation.action with
  | ApkInstalledPage =>
    rw [hkind] at haction
    obtain ⟨cursor, -, heq⟩ := except_bind_ok.1 haction
    rw [← Except.ok.inj heq] at hpage
    cases hpage
  | OpkgStatusPage =>
    rw [hkind] at haction
    obtain ⟨cursor, -, heq⟩ := except_bind_ok.1 haction
    rw [← Except.ok.inj heq] at hpage
    cases hpage
  | Ubus object method arguments =>
    rw [hkind] at haction
    obtain ⟨hobject, hmethod, hcount, kinds, -, -, -, hreviewed⟩ :=
      Operation.call_of_validate hvalid hkind
    have hubus : operation.action.is_ubus = true := by
      rw [hkind]
      rfl
    have hvalues : arguments_valid (.Object (sent values arguments.entries)) = true := by
      unfold arguments_valid
      simp only [as_object, Bool.and_eq_true, decide_eq_true_eq, List.all_eq_true]
      refine ⟨(List.length_filterMap_le _ _).trans hcount, ?_⟩
      intro e he
      obtain ⟨hname, kind, -, htype⟩ := reviewed_sent hreviewed hubus htaken he
      exact ⟨argument_name_of hname, argument_value_of htype⟩
    rw [← Except.ok.inj haction, prepare_arguments_sent]
    exact ⟨⟨hobject, hmethod, hvalues⟩, _, rfl⟩
  | Process program args =>
    rw [hkind] at haction
    obtain ⟨words, hwords, heq⟩ := except_bind_ok.1 haction
    obtain ⟨hprogram, hcount, hbounded, -⟩ :=
      Operation.program_of_validate hvalid hkind htaken hwords
    rw [← Except.ok.inj heq]
    refine ⟨⟨program_path_of hprogram, hcount, ?_⟩, _, rfl⟩
    intro word hword
    exact bounded_string_iff.1 (hbounded word hword)

/-- What is prepared from an accepted operation is compiled to its command, just when the line of
the command is not too long: each word with a blank, two quotes, and three bytes more for each quote
in it. The line is then encoded, with just this length, and the requirement of the operation never
finds the action invalid. -/
theorem a_prepared_action_is_compiled_unless_it_is_too_long (writer : Writer)
    {operation : Operation} (hvalid : operation.validate = .ok ()) {input : Value}
    {action : PreparedAction} (hprepare : operation.prepare input = .ok action)
    (hpage : action.package_page = none) :
    (∃ command, CommandSpec.of action = some command ∧
      let length := 4 + (command.words.map fun word =>
        len word + 3 + 3 * (bytes word).countP (· = 39)).sum
      ((∃ compiled, compile_action writer action = .ok compiled) ↔ length ≤ 262144) ∧
      (length ≤ 262144 → compile_action writer action = .ok command ∧
        ∃ line, encode_remote command = .ok line ∧ line.length = length)) ∧
    ∀ observation, operation.capability.evaluate observation (some action) ≠
      .Incompatible .InvalidPreparedAction := by
  obtain ⟨hchecked, command, hcommand⟩ := checked_of_prepare hvalid hprepare hpage
  refine ⟨⟨command, hcommand, ?_⟩, Operation.evaluate_prepared_ne hvalid hprepare hpage⟩
  have hcompile := compile_action_eq writer hchecked hcommand
  have hencode := command.encode_remote_eq
  have hlength : 4 + (command.words.map fun word =>
      len word + 3 + 3 * (bytes word).countP (· = 39)).sum = command.line_length := rfl
  have hmax : MAX_COMMAND_BYTES = 262144 := by decide
  rw [hmax] at hcompile hencode
  simp only [hlength]
  by_cases hle : command.line_length ≤ 262144
  · rw [if_pos hle] at hcompile hencode
    exact ⟨⟨fun _ => hle, fun _ => ⟨command, hcompile⟩⟩,
      fun _ => ⟨hcompile, _, hencode, command.length_line⟩⟩
  · rw [if_neg hle] at hcompile
    simp [hcompile, hle]

/-- A writer that writes the whole text at once. -/
def at_once : Writer := ⟨fun value => [bytes (encode value)], fun _ => List.flatten_singleton⟩

def scan_input : Value := .Object [("device".toList, .String "radio0".toList)]

def scan_command : CommandSpec := ⟨"/bin/ubus".toList, ["-S".toList, "call".toList, "iwinfo".toList,
  "scan".toList, "\x7b\"device\":\"radio0\"\x7d".toList]⟩

theorem a_scan_is_compiled : ∃ action, wireless_scan.prepare scan_input = .ok action ∧
    compile_action at_once action = .ok scan_command ∧
    (∃ line, encode_remote scan_command = .ok line ∧ line.length = 66) ∧
    ∀ observation, wireless_scan.capability.evaluate observation (some action) ≠
      .Incompatible .InvalidPreparedAction := by
  have hok : wireless_scan.validate.toOption.isSome = true := by decide +kernel
  cases hvalid : wireless_scan.validate with
  | error e =>
    rw [hvalid] at hok
    cases hok
  | ok _ =>
    have hprepare : wireless_scan.prepare scan_input = .ok (.Ubus "iwinfo".toList "scan".toList
        scan_input) := by
      unfold Operation.prepare
      rw [hvalid]
      rfl
    obtain ⟨⟨command, hcommand, -, hencoded⟩, hverdict⟩ :=
      a_prepared_action_is_compiled_unless_it_is_too_long at_once hvalid hprepare rfl
    have hspec : CommandSpec.of (.Ubus "iwinfo".toList "scan".toList scan_input) =
        some scan_command := by
      decide
    rw [hspec] at hcommand
    rw [← Option.some.inj hcommand] at hencoded
    obtain ⟨hcompile, line, hline, hlength⟩ := hencoded (by decide)
    refine ⟨_, hprepare, hcompile, ⟨line, hline, ?_⟩, hverdict⟩
    rw [hlength]
    decide

end openwrt_mcp_device_codec
