-- The error and the limits that the protection of a backup is under: for a container of keys, and
-- for the streams that are encrypted or decrypted.
import Mathlib

namespace openwrt_mcp_runtime.protection

inductive ProtectionError
  | InvalidConfig
  | InvalidMaterial
  | SourceUnavailable
  | InteractionRequired
  | UnsupportedProtection
  | UnsupportedContainer
  | InvalidContainer
  | ResourceLimit
  | EncryptionFailed
  | DecryptionFailed
  | StreamFailed
  | DeadlineExceeded
  deriving DecidableEq

structure KeyLimits where
  max_key_bytes : Nat
  max_container_bytes : Nat
  max_entries : Nat
  max_directory_bytes : Nat
  max_expansion_ratio : Nat

namespace KeyLimits

def default : KeyLimits where
  max_key_bytes := 64 * 1024
  max_container_bytes := 4 * 1024 * 1024
  max_entries := 128
  max_directory_bytes := 256 * 1024
  max_expansion_ratio := 100

def validate (limits : KeyLimits) : Except ProtectionError Unit :=
  let fields :=
    [(limits.max_key_bytes, 1024 * 1024), (limits.max_container_bytes, 16 * 1024 * 1024),
    (limits.max_entries, 4096), (limits.max_directory_bytes, 1024 * 1024),
    (limits.max_expansion_ratio, 1000)]
  if (fields.any fun f => f.1 = 0 || f.1 > f.2) ||
      limits.max_directory_bytes > limits.max_container_bytes then .error .InvalidConfig
  else .ok ()

end KeyLimits

structure CryptoLimits where
  max_input_bytes : Nat
  max_output_bytes : Nat
  timeout_ms : Nat
  max_recipients : Nat

def CryptoLimits.validate (limits : CryptoLimits) : Except ProtectionError Unit :=
  if ¬ (1 ≤ limits.max_input_bytes ∧ limits.max_input_bytes ≤ 1024 * 1024 * 1024) ∨
      ¬ (1 ≤ limits.max_output_bytes ∧ limits.max_output_bytes ≤ 1024 * 1024 * 1024) ∨
      ¬ (1 ≤ limits.timeout_ms ∧ limits.timeout_ms ≤ 300000) ∨
      ¬ (1 ≤ limits.max_recipients ∧ limits.max_recipients ≤ 64) then
    .error .InvalidConfig
  else .ok ()

structure CryptoReport where
  input_bytes : Nat
  output_bytes : Nat
  deriving DecidableEq

end openwrt_mcp_runtime.protection
