/-
  HelixDb.Keys.Scope

  **DATA SCOPES**: the legacy namespace and the namespace of each tenant.

  A tenant's keys carry an envelope, one marker byte and the tenant's number;
  legacy keys carry none.

    • `DataScope.stripTenantEnvelope_envelope` — the envelope reads back,
    • `DataScope.tenant_eq_of_isPrefix` — keys that agree on the envelope are of
      one tenant.
-/
import HelixDb.Lib.Bytes

namespace HelixDb.Keys

open HelixDb.Lib

/-- Storage tenant identifier encoded into physical keys. -/
@[ext] structure TenantId where
  asU128 : BitVec 128
deriving DecidableEq

/-- Request data-storage namespace. -/
inductive DataScope where
  | legacyUnscoped
  | tenant (id : TenantId)
deriving DecidableEq

namespace DataScope

/-- The position of a scope in the derived order: the legacy scope, then tenants by number. -/
def rank : DataScope → Nat
  | legacyUnscoped => 0
  | tenant id => id.asU128.toNat + 1

theorem rank_injective : Function.Injective rank := by
  intro a b h
  cases a with
  | legacyUnscoped =>
    cases b with
    | legacyUnscoped => rfl
    | tenant id => exact absurd h (Nat.succ_ne_zero _).symm
  | tenant id =>
    cases b with
    | legacyUnscoped => exact absurd h (Nat.succ_ne_zero _)
    | tenant id' =>
      have hnat : id.asU128.toNat = id'.asU128.toNat := Nat.succ.inj h
      exact congrArg tenant (TenantId.ext (BitVec.eq_of_toNat_eq hnat))

/-- Scopes in their derived order. -/
instance : LinearOrder DataScope := LinearOrder.lift' rank rank_injective

end DataScope

/-! ## §1. The tenant envelope. -/

/-- Physical marker introducing every tenant-scoped key. -/
def TENANT_KEY_PREFIX : UInt8 := 0xFD

/-- The bytes of a tenant's UUID. -/
def TENANT_ID_LEN : Nat := 16
/-- The bytes in front of a tenant's keys. -/
def TENANT_ENVELOPE_LEN : Nat := 1 + TENANT_ID_LEN

namespace DataScope

/-- `encode_key_prefix`: the complete physical tenant envelope. -/
def encodeKeyPrefix : DataScope → Bytes
  | legacyUnscoped => []
  | tenant id => TENANT_KEY_PREFIX :: beBytes TENANT_ID_LEN id.asU128.toNat

/-- `strip_tenant_envelope`: the tenant and the logical suffix of an enveloped key. -/
def stripTenantEnvelope (key : Bytes) : Option (TenantId × Bytes) :=
  if key.length < TENANT_ENVELOPE_LEN ∨ key.head? ≠ some TENANT_KEY_PREFIX then none
  else
    let id := ofBe ((key.drop 1).take TENANT_ID_LEN)
    some (⟨BitVec.ofNat 128 id⟩, key.drop TENANT_ENVELOPE_LEN)

/-- `strip_key`: the logical bytes of a physical key, seen from one scope. -/
def stripKey (scope : DataScope) (key : Bytes) : Option Bytes :=
  match scope with
  | legacyUnscoped => some key
  | tenant id => do
    let (encodedTenant, logical) ← stripTenantEnvelope key
    if encodedTenant = id then some logical else none

/-- `data_prefix`: the physical prefix a scan of one scope uses. -/
def dataPrefix (scope : DataScope) (logicalPrefix : Bytes) : Bytes :=
  scope.encodeKeyPrefix ++ logicalPrefix

@[simp] theorem encodeKeyPrefix_tenant_length (id : TenantId) :
    (encodeKeyPrefix (tenant id)).length = TENANT_ENVELOPE_LEN := by
  simp [encodeKeyPrefix, TENANT_ENVELOPE_LEN, Nat.add_comm]

/-- **The envelope reads back**, with exactly the bytes after it. -/
theorem stripTenantEnvelope_envelope (id : TenantId) (logical : Bytes) :
    stripTenantEnvelope (encodeKeyPrefix (tenant id) ++ logical) = some (id, logical) := by
  have hlen : (beBytes TENANT_ID_LEN id.asU128.toNat).length = TENANT_ID_LEN := beBytes_length _ _
  have hid : id.asU128.toNat < 256 ^ TENANT_ID_LEN := id.asU128.isLt
  have hguard : ¬ ((encodeKeyPrefix (tenant id) ++ logical).length < TENANT_ENVELOPE_LEN ∨
      (encodeKeyPrefix (tenant id) ++ logical).head? ≠ some TENANT_KEY_PREFIX) := by
    rw [List.length_append, encodeKeyPrefix_tenant_length]
    simp [encodeKeyPrefix]
  rw [stripTenantEnvelope, if_neg hguard]
  have htake : ((encodeKeyPrefix (tenant id) ++ logical).drop 1).take TENANT_ID_LEN
      = beBytes TENANT_ID_LEN id.asU128.toNat := by
    exact List.take_left' hlen
  have hdrop : (encodeKeyPrefix (tenant id) ++ logical).drop TENANT_ENVELOPE_LEN = logical :=
    List.drop_left' (encodeKeyPrefix_tenant_length id)
  simp only [htake, hdrop, ofBe_beBytes _ _ hid, BitVec.ofNat_toNat, BitVec.setWidth_eq]

/-- Two keys that agree on the envelope's bytes carry the same tenant. -/
theorem tenant_eq_of_isPrefix {s t : TenantId} {scan logical : Bytes}
    (h : encodeKeyPrefix (tenant s) ++ scan <+: encodeKeyPrefix (tenant t) ++ logical) : s = t := by
  obtain ⟨rest, heq⟩ := h
  have hstrip := stripTenantEnvelope_envelope t logical
  rw [← heq, List.append_assoc, stripTenantEnvelope_envelope] at hstrip
  exact congrArg Prod.fst (Option.some.inj hstrip)

end DataScope

end HelixDb.Keys
