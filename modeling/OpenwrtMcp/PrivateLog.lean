-- The log file of the host and its older generations: a write that does not fit moves every
-- generation to the next number, and any step of it may fail.
import OpenwrtMcp.Json
import OpenwrtMcp.Programs

open json programs text

namespace openwrt_mcp_host_platform

inductive HostError
  | InvalidPath
  | Unsupported
  | Unavailable
  | Insecure
  | Limit
  deriving DecidableEq

abbrev Bytes := List UInt8

/-- The files of the directory, by their names. -/
abbrev Dir := Str → Option Bytes

/-- How one call to the system ends. One that fails may have made the file that it was to open,
or have written a part. -/
structure Fault where
  error : Option HostError
  created : Bool
  written : Nat

structure PrivateLog where
  name : Str
  file : Bool
  size : Nat
  max_bytes : Nat
  retained : Nat

/-- The directory, the calls that are to come, and the log. Whether a renamed file ever took the
place of another is kept, too. -/
structure World where
  dir : Dir
  faults : List Fault
  replaced : Bool
  log : PrivateLog

abbrev Host := Prog World HostError

/-! ## Calls to the system -/

/-- The end of the next call. When none is said, it is a good one. -/
def next_fault : Host Fault := fun w =>
  match w.faults with
  | [] => (.ok ⟨none, false, 0⟩, w)
  | fault :: rest => (.ok fault, { w with faults := rest })

def stop_on (error : Option HostError) : Host Unit :=
  match error with
  | none => pure ()
  | some e => Prog.stop e

def set_dir (f : Dir → Dir) : Host Unit := Prog.modify fun w => { w with dir := f w.dir }

/-- The owner and the mode of what is looked at, which is not modelled further. -/
def validate_metadata : Host Unit := do
  let fault ← next_fault
  stop_on fault.error

def validate_directory : Host Unit := validate_metadata

def file_at (name : Str) : Host Bool := do
  validate_metadata
  let w ← Prog.get
  pure (w.dir name).isSome

/-- Any error of these calls is returned as one. -/
def unavailable (fault : Fault) : Option HostError := fault.error.map fun _ => .Unavailable

def unlinkat (name : Str) : Host Unit := do
  let fault ← next_fault
  stop_on (unavailable fault)
  set_dir fun dir => Function.update dir name none

def renameat (source target : Str) : Host Unit := do
  let fault ← next_fault
  stop_on (unavailable fault)
  let w ← Prog.get
  let content ← Prog.ok_or (w.dir source) .Unavailable
  Prog.modify fun w => { w with
    dir := Function.update (Function.update w.dir target (some content)) source none
    replaced := w.replaced || (w.dir target).isSome }

def create (name : Str) (dir : Dir) : Dir := Function.update dir name (some ((dir name).getD []))

def append_file (name : Str) : Host Unit := do
  let fault ← next_fault
  Prog.when (fault.error.isNone || fault.created) (set_dir (create name))
  stop_on fault.error

def append (name : Str) (bytes : Bytes) (dir : Dir) : Dir :=
  Function.update dir name ((dir name).map (· ++ bytes))

namespace PrivateLog

def generation (name : Str) (index : Nat) : Str := name ++ '.' :: decimal index

/-- `.write_all(bytes)` on the open file. -/
def write_all (bytes : Bytes) : Host Unit := do
  let w ← Prog.get
  Prog.when (!w.log.file) (Prog.stop .Unavailable)
  let fault ← next_fault
  match fault.error with
  | none => set_dir (append w.log.name bytes)
  | some _ => do
    set_dir (append w.log.name (bytes.take fault.written))
    Prog.stop .Unavailable

/-- The open file is the one of its name, and as long as it was left. -/
def validate_active : Host Unit := do
  let w ← Prog.get
  Prog.when (!w.log.file) (Prog.stop .Unavailable)
  validate_metadata
  let named ← file_at w.log.name
  Prog.when (!named) (Prog.stop .Insecure)
  Prog.when (((w.dir w.log.name).map List.length) ≠ some w.log.size) (Prog.stop .Insecure)

/-- `for index in 1..=retained` -/
def look_at (name : Str) : (retained : Nat) → Host Unit
  | 0 => pure ()
  | index + 1 => do
    look_at name index
    let _ ← file_at (generation name (index + 1))

/-- `for index in (1..=last).rev()` -/
def shift (name : Str) : (last : Nat) → Host Unit
  | 0 => pure ()
  | index + 1 => do
    let found ← file_at (generation name (index + 1))
    Prog.when found (renameat (generation name (index + 1)) (generation name (index + 2)))
    shift name index

def close : Host Unit := Prog.modify fun w => { w with log := { w.log with file := false } }

def rotate : Host Unit := do
  let w ← Prog.get
  let name := w.log.name
  look_at name w.log.retained
  close
  let found ← file_at (generation name w.log.retained)
  Prog.when found (unlinkat (generation name w.log.retained))
  shift name (w.log.retained - 1)
  renameat name (generation name 1)
  append_file name
  Prog.modify fun w => { w with log := { w.log with file := true, size := 0 } }

def saturating_add (a b : Nat) : Nat := min (a + b) (2 ^ 64 - 1)

def write_inner (bytes : Bytes) : Host Unit := do
  let w ← Prog.get
  Prog.when (!w.log.file) (Prog.stop .Unavailable)
  Prog.when (bytes.length > w.log.max_bytes) (Prog.stop .Limit)
  validate_directory
  validate_active
  Prog.when (saturating_add w.log.size bytes.length > w.log.max_bytes) rotate
  write_all bytes
  Prog.modify fun w =>
    { w with log := { w.log with size := saturating_add w.log.size bytes.length } }

/-- After an error the log is closed. -/
def write (bytes : Bytes) : Host Unit := fun w =>
  match write_inner bytes w with
  | (.ok (), w') => (.ok (), w')
  | (.error e, w') => (.error e, { w' with log := { w'.log with file := false } })

/-- The file is made if it is not there, and its length is looked up. -/
def opening (name : Str) : Host Unit := do
  validate_directory
  append_file name
  validate_metadata
  Prog.modify fun w =>
    { w with log := { w.log with file := true, size := ((w.dir name).getD []).length } }

/-- `PrivateLog::open(path, max_bytes, retained)`, in the directory of the path. -/
def open_log (name : Str) (max_bytes retained : Nat) (dir : Dir) (faults : List Fault) :
    Except HostError World :=
  if max_bytes = 0 ∨ max_bytes > 1073741824 ∨ retained < 1 ∨ 100 < retained then .error .Limit
  else match opening name ⟨dir, faults, false, ⟨name, false, 0, max_bytes, retained⟩⟩ with
    | (.ok (), w) => .ok w
    | (.error e, _) => .error e

end PrivateLog

end openwrt_mcp_host_platform
