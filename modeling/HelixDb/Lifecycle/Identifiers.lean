/-
  HelixDb.Lifecycle.Identifiers

  **NUMERIC IDENTITIES** of the index lifecycle: non-zero `u64` values, one type
  for each kind, and the UUID of an operation.

  The kind is part of the type and of the error texts, as the source's macro
  has it.  The logical identity of an index is its family, element kind, label
  and property.
-/
import HelixDb.Lib.Saturating
import HelixDb.OperationQueue.Value

namespace HelixDb.Lifecycle

open HelixDb.Lib

/-- The model errors a numeric identity raises. -/
inductive IndexV2ModelError where
  | zeroIdentifier (kind : String)
  | identifierExhausted (kind : String)
deriving DecidableEq

/-- `non_zero_u64_type!`: a validated non-zero number of one kind. -/
@[ext] structure NonZeroId (kind : String) where
  get : UInt64
  ne_zero : get ≠ 0
deriving DecidableEq

namespace NonZeroId

variable {kind : String}

/-- `new`. -/
def new (kind : String) (value : UInt64) : Except IndexV2ModelError (NonZeroId kind) :=
  if h : value = 0 then .error (.zeroIdentifier kind) else .ok ⟨value, h⟩

/-- `initial`. -/
def initial (kind : String) : NonZeroId kind := ⟨1, by decide⟩

/-- `checked_next`. -/
def checkedNext (id : NonZeroId kind) : Except IndexV2ModelError (NonZeroId kind) :=
  if id.get.toNat = U64_MAX then .error (.identifierExhausted kind) else new kind (id.get + 1)

/-- Identities are ordered as the numbers they hold. -/
instance : LinearOrder (NonZeroId kind) :=
  LinearOrder.lift' (fun id => id.get.toNat) (fun _ _ h => NonZeroId.ext (UInt64.toNat_inj.mp h))

end NonZeroId

/-- `IndexId`. -/
abbrev IndexId := NonZeroId "index ID"
/-- `IndexGenerationId`. -/
abbrev IndexGenerationId := NonZeroId "index generation ID"

/-- A non-nil UUID, as its 128-bit number. -/
structure IndexOperationId where
  uuid : BitVec 128
  not_nil : uuid ≠ 0
deriving DecidableEq

/-! ## Logical identities. -/

export HelixDb.Queue (IndexElementKind IndexEntity)

/-- Logical identity lane. -/
inductive IndexIdentityFamily where
  | secondaryEquality
  | secondaryRange
  | vector
  | text
deriving DecidableEq

/-- The byte of a family. -/
def IndexIdentityFamily.toU8 : IndexIdentityFamily → UInt8
  | secondaryEquality => 0x01
  | secondaryRange => 0x02
  | vector => 0x03
  | text => 0x04

/-- The longest name of an identity. -/
def INDEX_COMPONENT_MAX_LEN : Nat := 2 ^ 16 - 1

/-- Non-empty bounded UTF-8 component of identities and definitions. -/
@[ext] structure IndexComponent where
  asStr : String
  nonempty : asStr ≠ ""
  bounded : (utf8Bytes asStr).length ≤ INDEX_COMPONENT_MAX_LEN
deriving DecidableEq

/-- Scoped logical identity of one index. -/
structure IndexIdentity where
  family : IndexIdentityFamily
  elementKind : IndexElementKind
  label : IndexComponent
  property : IndexComponent
deriving DecidableEq

end HelixDb.Lifecycle
