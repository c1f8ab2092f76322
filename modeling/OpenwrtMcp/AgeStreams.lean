-- The streams that `crypto-age` puts around a caller's reader and writer, and the two providers
-- over them. The caller's streams and the clock may answer anything. The age library is a
-- parameter: programs that call the streams, and that go on as they like after an error.
import OpenwrtMcp.Programs
import OpenwrtMcp.ProtectionLimits

open programs openwrt_mcp_runtime.protection

namespace openwrt_mcp_crypto_age

abbrev Bytes := List UInt8

def MAX_HEADER_READ_BYTES : Nat := 256 * 1024
def COPY_BYTES : Nat := 8192

/-! ## What is around the streams -/

inductive Fault
  | Limit
  | Stream
  | Deadline
  deriving DecidableEq

/-- What the caller's reader does in a call. It fills at most the buffer, and may come back with a
count that no buffer of the call has room for. -/
inductive ReadAnswer
  | Gives (count : Nat)
  | Claims (beyond : Nat)
  | Interrupted
  | Fails

/-- What the caller's writer does in a call, likewise. -/
inductive WriteAnswer
  | Takes (count : Nat)
  | Claims (beyond : Nat)
  | Interrupted
  | Fails

/-- The clock says at each look whether the time is over. `faults` are all the faults that were
met so far, in their order. -/
structure Budget where
  late : Nat → Bool
  looks : Nat
  failure : Option Fault
  header_maximum : Option Nat
  faults : List Fault

/-- `stream` is what the caller's reader has still to give, and `delivered` what the calls of
`read` gave so far. -/
structure BoundedRead where
  maximum : Nat
  count : Nat
  stream : Bytes
  answers : List ReadAnswer
  delivered : Bytes

/-- `forwarded` is what the caller's writer took, and `accepted` what the calls of `write` came
back with as written. -/
structure BoundedWrite where
  maximum : Nat
  count : Nat
  answers : List WriteAnswer
  flushes : List Bool
  forwarded : Bytes
  accepted : Bytes

/-- `taken` are the bytes that the library took to encrypt. -/
structure World where
  budget : Budget
  input : BoundedRead
  output : BoundedWrite
  taken : Bytes

/-- `protected_stream_failed`, the only error of the streams. -/
inductive IoError
  | protected_stream_failed
  deriving DecidableEq

/-- How a call ends that gives no value: with an error, with a panic, or not at all when the
caller's streams do not come back. -/
inductive Halt (ε : Type)
  | err (e : ε)
  | panicked
  | blocked

abbrev Run (ε α : Type) := Prog World (Halt ε) α

section
variable {α ε ε' : Type}

def fail_with (e : ε) : Run ε α := Prog.stop (.err e)

/-- `result.map_err(f)?`, where `f` may look at the state. -/
def map_err (f : World → ε → ε') (x : Run ε α) : Run ε' α := fun w =>
  match x w with
  | (.ok a, w') => (.ok a, w')
  | (.error (.err e), w') => (.error (.err (f w' e)), w')
  | (.error .panicked, w') => (.error .panicked, w')
  | (.error .blocked, w') => (.error .blocked, w')

/-- A call whose error is a value for the caller. -/
def result_of (x : Run ε α) : Run ε' (Except ε α) := fun w =>
  match x w with
  | (.ok a, w') => (.ok (.ok a), w')
  | (.error (.err e), w') => (.ok (.error e), w')
  | (.error .panicked, w') => (.error .panicked, w')
  | (.error .blocked, w') => (.error .blocked, w')

end

/-! ## The budget -/

namespace Budget

def set_budget (f : Budget → Budget) (w : World) : World := { w with budget := f w.budget }

def meet (fault : Fault) (b : Budget) : Budget :=
  { b with failure := if b.failure.isNone then some fault else b.failure,
           faults := b.faults ++ [fault] }

def begin_header {ε : Type} (maximum : Nat) : Run ε Unit :=
  Prog.modify (set_budget fun b => { b with header_maximum := some maximum })

def finish_header {ε : Type} : Run ε Unit :=
  Prog.modify (set_budget fun b => { b with header_maximum := none })

def error (b : Budget) (fallback : ProtectionError) : ProtectionError :=
  match b.failure with
  | some .Limit => .ResourceLimit
  | some .Stream => .StreamFailed
  | some .Deadline => .DeadlineExceeded
  | none => fallback

/-- A look at the clock, which may latch the deadline. -/
def look (b : Budget) : Budget :=
  let b' := { b with looks := b.looks + 1 }
  if b.late b.looks then meet .Deadline b' else b'

def check : Run ProtectionError Unit := fun w =>
  let w := set_budget look w
  match w.budget.failure with
  | some _ => (.error (.err (w.budget.error .StreamFailed)), w)
  | none => (.ok (), w)

def fail {α : Type} (failure : Fault) : Run IoError α := do
  Prog.modify (set_budget (meet failure))
  fail_with .protected_stream_failed

def check_io : Run IoError Unit := map_err (fun _ _ => .protected_stream_failed) check

end Budget

/-! ## Reading -/

inductive ErrorKind
  | Interrupted
  | Other

/-- The caller's `read`, into a buffer of `capacity` bytes: the count, and the bytes that are in
the buffer. -/
def inner_read {ε : Type} (capacity : Nat) (answer : ReadAnswer) :
    Run ε (Except ErrorKind (Nat × Bytes)) := do
  let w ← Prog.get
  Prog.modify fun w => { w with input := { w.input with answers := w.input.answers.tail } }
  match answer with
  | .Gives count =>
    let filled := w.input.stream.take (min count capacity)
    Prog.modify fun w => { w with input := { w.input with
      stream := w.input.stream.drop (min count capacity) } }
    pure (.ok (filled.length, filled))
  | .Claims beyond => pure (.ok (capacity + 1 + beyond, []))
  | .Interrupted => pure (.error .Interrupted)
  | .Fails => pure (.error .Other)

/-- The loop of `read_inner`; a reader with no answer left does not come back. -/
def read_loop (capacity : Nat) : List ReadAnswer → Run IoError Bytes
  | [] => do
    Budget.check_io
    Prog.stop .blocked
  | answer :: rest => do
    Budget.check_io
    let result ← inner_read capacity answer
    Budget.check_io
    match result with
    | .ok (count, filled) => if count ≤ capacity then pure filled else Budget.fail .Stream
    | .error .Interrupted => read_loop capacity rest
    | .error .Other => Budget.fail .Stream

def read_inner (capacity : Nat) : Run IoError Bytes := do
  let w ← Prog.get
  read_loop capacity w.input.answers

/-- The limit in force. -/
def World.limit (w : World) : Nat :=
  match w.budget.header_maximum with
  | some header => min header w.input.maximum
  | none => w.input.maximum

def deliver (bytes : Bytes) (w : World) : World :=
  { w with input := { w.input with
      count := w.input.count + bytes.length, delivered := w.input.delivered ++ bytes } }

/-- `BoundedRead::read`, into a buffer of `capacity` bytes. -/
def read (capacity : Nat) : Run IoError Bytes := do
  Budget.check_io
  if capacity = 0 then pure []
  else
    let w ← Prog.get
    -- an unsigned subtraction
    if w.limit < w.input.count then Prog.stop .panicked
    else
      let remaining := w.limit - w.input.count
      if remaining = 0 then do
        let probe ← read_inner 1
        if probe.length = 0 then pure [] else Budget.fail .Limit
      else do
        let bytes ← read_inner (min remaining capacity)
        Prog.modify (deliver bytes)
        pure bytes

/-! ## Writing -/

/-- The caller's `write`: the count. -/
def inner_write {ε : Type} (buffer : Bytes) (answer : WriteAnswer) :
    Run ε (Except ErrorKind Nat) := do
  Prog.modify fun w => { w with output := { w.output with answers := w.output.answers.tail } }
  match answer with
  | .Takes count =>
    let part := buffer.take count
    Prog.modify fun w => { w with output := { w.output with
      forwarded := w.output.forwarded ++ part } }
    pure (.ok part.length)
  | .Claims beyond => do
    -- at most the whole buffer went through
    Prog.modify fun w => { w with output := { w.output with
      forwarded := w.output.forwarded ++ buffer } }
    pure (.ok (buffer.length + 1 + beyond))
  | .Interrupted => pure (.error .Interrupted)
  | .Fails => pure (.error .Other)

def count_written (count : Nat) (w : World) : World :=
  { w with output := { w.output with count := w.output.count + count } }

/-- The loop of `write`, from `offset`. -/
def write_loop (buffer : Bytes) : List WriteAnswer → Nat → Run IoError Nat
  | [], offset =>
    if offset < buffer.length then do
      Budget.check_io
      Prog.stop .blocked
    else pure offset
  | answer :: rest, offset =>
    if offset < buffer.length then do
      Budget.check_io
      let result ← inner_write (buffer.drop offset) answer
      Budget.check_io
      match result with
      | .ok count =>
        if 0 < count ∧ count ≤ buffer.length - offset then do
          Prog.modify (count_written count)
          write_loop buffer rest (offset + count)
        else Budget.fail .Stream
      | .error .Interrupted => write_loop buffer rest offset
      | .error .Other => Budget.fail .Stream
    else pure offset

def accept (buffer : Bytes) (w : World) : World :=
  { w with output := { w.output with accepted := w.output.accepted ++ buffer } }

/-- `BoundedWrite::write` -/
def write (buffer : Bytes) : Run IoError Nat := do
  Budget.check_io
  let w ← Prog.get
  -- an unsigned subtraction
  if w.output.maximum < w.output.count then Prog.stop .panicked
  else if buffer.length > w.output.maximum - w.output.count then Budget.fail .Limit
  else do
    let offset ← write_loop buffer w.output.answers 0
    Prog.modify (accept buffer)
    pure offset

/-- The caller's `flush`: whether it is fine. -/
def inner_flush {ε : Type} : Run ε Bool := do
  let w ← Prog.get
  match w.output.flushes with
  | [] => Prog.stop .blocked
  | fine :: rest => do
    Prog.modify fun w => { w with output := { w.output with flushes := rest } }
    pure fine

/-- `BoundedWrite::flush` -/
def flush : Run IoError Unit := do
  Budget.check_io
  let fine ← inner_flush
  Budget.check_io
  if fine then pure () else Budget.fail .Stream

/-! ## The library -/

/-- A call of a stream. -/
inductive Call
  | read (capacity : Nat)
  | write (buffer : Bytes)
  | flush

/-- What a call gives when it is fine. -/
def Call.Given : Call → Type
  | .read _ => Bytes
  | .write _ => Nat
  | .flush => Unit

def Call.run : (call : Call) → Run IoError call.Given
  | .read capacity => openwrt_mcp_crypto_age.read capacity
  | .write buffer => openwrt_mcp_crypto_age.write buffer
  | .flush => openwrt_mcp_crypto_age.flush

/-- A call of the stream that is read. -/
def Call.Reads : Call → Prop
  | .read _ => True
  | _ => False

/-- A call of the stream that is written. -/
def Call.Writes : Call → Prop
  | .read _ => False
  | _ => True

/-- A program of the library: calls of the streams that it has, where an error is an answer like
any other. -/
inductive Calls (Has : Call → Prop) (α : Type)
  | done (a : α)
  | call (c : Call) (has : Has c) (next : Except IoError c.Given → Calls Has α)

def Calls.run {ε α : Type} {Has : Call → Prop} : Calls Has α → Run ε α
  | .done a => pure a
  | .call c _ next => do
    let result ← result_of c.run
    (next result).run

def outcome {ε α : Type} : Except ε α → Run ε α
  | .ok a => pure a
  | .error e => fail_with e

/-- A call of the library that may fail. -/
def library {α : Type} {Has : Call → Prop} (calls : Calls Has (Except Unit α)) : Run Unit α := do
  let result ← calls.run
  outcome result

/-- The `age` crate, as the providers use it. It writes what it encrypts, and reads what it
decrypts. -/
structure Age where
  Key : Type
  Encryptor : Type
  Writer : Type
  Decryptor : Type
  Reader : Type
  with_recipients : List Key → Except Unit Encryptor
  wrap_output : Encryptor → Calls Call.Writes (Except Unit Writer)
  write_all : Writer → Bytes → Calls Call.Writes (Except Unit Writer)
  finish : Writer → Calls Call.Writes (Except Unit Unit)
  new_buffered : Calls Call.Reads (Except Unit Decryptor)
  is_scrypt : Decryptor → Bool
  decrypt : Decryptor → List Key → Calls Call.Reads (Except Unit Reader)
  read : Reader → Nat → Calls Call.Reads (Except Unit (Bytes × Reader))

/-! ## The providers -/

/-- The loop of `copy`. It ends with the stream; `turns` bounds how far it is followed. -/
def copy {ε ε' R W : Type} (read : R → Run ε (Bytes × R)) (write_all : W → Bytes → Run ε' W)
    (fallback : ProtectionError) : Nat → R → W → Run ProtectionError (R × W)
  | 0, _, _ => Prog.stop .blocked
  | turns + 1, input, output => do
    Budget.check
    let (bytes, input) ← map_err (fun w _ => w.budget.error fallback) (read input)
    Budget.check
    if bytes.length = 0 then pure (input, output)
    -- `&buffer[..count]`
    else if bytes.length > COPY_BYTES then Prog.stop .panicked
    else do
      let output ← map_err (fun w _ => w.budget.error fallback) (write_all output bytes)
      copy read write_all fallback turns input output

/-- `Write::write_all` over a `BoundedWrite`. A call takes at least a byte. -/
def write_all : Nat → Bytes → Run IoError Unit
  | 0, buffer => if buffer = [] then pure () else fail_with .protected_stream_failed
  | turns + 1, buffer =>
    if buffer = [] then pure ()
    else do
      let count ← write buffer
      if count = 0 then fail_with .protected_stream_failed
      else if count > buffer.length then Prog.stop .panicked
      else write_all turns (buffer.drop count)

/-- A line of key material that is not empty and no comment: its length, and the key that it is
read as. -/
structure Line (K : Type) where
  length : Nat
  key : Option K

def MAX_NATIVE_KEY_LINE_BYTES : Nat := 128

/-- The loop over the lines. -/
def native_lines {K : Type} (maximum : Nat) : List (Line K) → List K → Run ProtectionError (List K)
  | [], keys =>
    if keys.isEmpty then fail_with .InvalidMaterial
    else do
      Budget.check
      pure keys
  | line :: rest, keys => do
    Budget.check
    if keys.length ≥ maximum then fail_with .ResourceLimit
    else if line.length > MAX_NATIVE_KEY_LINE_BYTES then fail_with .InvalidMaterial
    else
      match line.key with
      | none => fail_with .InvalidMaterial
      | some key => native_lines maximum rest (keys ++ [key])

/-- `keys::recipients` and `keys::identities`; a document that is no text has no lines. -/
def native_keys {K : Type} (document : Option (List (Line K))) (maximum : Nat) :
    Run ProtectionError (List K) :=
  match document with
  | none => fail_with .InvalidMaterial
  | some lines => native_lines maximum lines []

/-- `Budget::new`, `BoundedRead::new` and `BoundedWrite::new` -/
def new_streams (limits : CryptoLimits) (w : World) : World where
  budget := { w.budget with failure := none, header_maximum := none, faults := [] }
  input := { w.input with maximum := limits.max_input_bytes, count := 0, delivered := [] }
  output := { w.output with
    maximum := limits.max_output_bytes, count := 0, forwarded := [], accepted := [] }
  taken := []

def report : Run ProtectionError CryptoReport := do
  let w ← Prog.get
  pure ⟨w.input.count, w.output.count⟩

/-- What `copy` reads when it encrypts. -/
def read_input (_ : Unit) : Run IoError (Bytes × Unit) := do
  let bytes ← read COPY_BYTES
  pure (bytes, ())

/-- What `copy` writes to when it encrypts. -/
def feed (age : Age) (writer : age.Writer) (bytes : Bytes) : Run Unit age.Writer := do
  let writer ← library (age.write_all writer bytes)
  Prog.modify fun w => { w with taken := w.taken ++ bytes }
  pure writer

def encrypt (age : Age) (document : Option (List (Line age.Key))) (limits : CryptoLimits)
    (turns : Nat) : Run ProtectionError CryptoReport := do
  match limits.validate with
  | .error e => fail_with e
  | .ok _ =>
    Prog.modify (new_streams limits)
    let recipients ← native_keys document limits.max_recipients
    let failed := fun (w : World) (_ : Unit) => w.budget.error .EncryptionFailed
    let encryptor ← map_err failed (outcome (age.with_recipients recipients))
    Budget.check
    let writer ← map_err failed (library (age.wrap_output encryptor))
    let (_, writer) ← copy read_input (feed age) .EncryptionFailed turns () writer
    map_err failed (library (age.finish writer))
    map_err (fun w _ => w.budget.error .StreamFailed) flush
    Budget.check
    report

def decrypt_to_staging (age : Age) (document : Option (List (Line age.Key)))
    (limits : CryptoLimits) (turns : Nat) : Run ProtectionError CryptoReport := do
  match limits.validate with
  | .error e => fail_with e
  | .ok _ =>
    Prog.modify (new_streams limits)
    let identities ← native_keys document limits.max_recipients
    let failed := fun (w : World) (_ : Unit) => w.budget.error .DecryptionFailed
    Budget.begin_header MAX_HEADER_READ_BYTES
    let decryptor ← map_err failed (library age.new_buffered)
    Budget.finish_header
    Budget.check
    if age.is_scrypt decryptor then fail_with .UnsupportedProtection
    else
      let reader ← map_err failed (library (age.decrypt decryptor identities))
      let _ ← copy (fun reader => library (age.read reader COPY_BYTES))
        (fun _ bytes => write_all bytes.length bytes) .DecryptionFailed turns reader ()
      map_err (fun w _ => w.budget.error .StreamFailed) flush
      Budget.check
      report

end openwrt_mcp_crypto_age
