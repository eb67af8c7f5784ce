import SheetPackages.Digest.Sha256
import SheetPackages.Fault

/-!
# Integrity

The integrity of an archive is a text with the digest of its bytes. A lockfile keeps the integrity
of what was installed, and other bytes under the same name are refused.
-/

namespace SheetPackages.Digest

/-- The name of the digest and its hexadecimal digits. -/
def integrity (data : ByteArray) : String :=
  "sha256:" ++ sha256Hex data

/-- Refuses bytes with another integrity than the expected one. -/
def verify (package : String) (data : ByteArray) (expected : String) : Except Fault Unit :=
  if integrity data = expected then pure ()
  else throw (.integrityMismatch package expected (integrity data))

end SheetPackages.Digest
