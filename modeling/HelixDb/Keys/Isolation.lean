/-
  HelixDb.Keys.Isolation

  **TENANT ISOLATION OF THE KEY SPACE.**

  The legacy scope shares its byte space with every tenant: it adds no envelope
  and strips none.  What keeps the scopes apart is that no logical key, of
  either family, starts with the tenant marker, and that an envelope has one
  length and reads back.

    • `scopes_isolated` — keys of distinct scopes differ, a tenant strips only
      its own keys, and one tenant's scans reach no other tenant's keys,
    • `legacy_strips_tenant_key` — the legacy scope strips every key.
-/
import HelixDb.Keys.ManagedIndex

namespace HelixDb.Keys

open HelixDb.Lib DataScope

/-- A logical key of one of the two scoped families. -/
inductive LogicalKey where
  | data (kind : DataKeyKind)
  | managedIndex (kind : ScopedKey)

namespace LogicalKey

/-- The logical bytes. -/
def encode : LogicalKey → Bytes
  | data kind => kind.encode
  | managedIndex kind => kind.encode

/-- The physical bytes under a scope, as the family's own `to_bytes` writes them. -/
def toBytes (scope : DataScope) : LogicalKey → Bytes
  | data kind => (DataKey.data scope kind).toBytes
  | managedIndex kind => (ManagedIndexKey.data scope kind).toBytes

theorem toBytes_eq (scope : DataScope) (key : LogicalKey) :
    key.toBytes scope = scope.encodeKeyPrefix ++ key.encode := by
  cases key <;> rfl

theorem encode_unenveloped (key : LogicalKey) : Unenveloped key.encode := by
  cases key with
  | data kind => exact kind.encode_unenveloped
  | managedIndex kind => exact kind.encode_unenveloped

end LogicalKey

/-- An enveloped key is no unenveloped one. -/
theorem Unenveloped.ne_tenant {logical : Bytes} (h : Unenveloped logical) (t : TenantId)
    (suffix : Bytes) : logical ≠ encodeKeyPrefix (tenant t) ++ suffix := by
  obtain ⟨first, rest, rfl, hfirst⟩ := h
  intro heq
  exact hfirst (List.head_eq_of_cons_eq heq)

/-- Physical keys determine their scope. -/
theorem LogicalKey.scope_eq_of_toBytes_eq {s t : DataScope} {k l : LogicalKey}
    (h : k.toBytes s = l.toBytes t) : s = t := by
  rw [toBytes_eq, toBytes_eq] at h
  cases s with
  | legacyUnscoped =>
    cases t with
    | legacyUnscoped => rfl
    | tenant t => exact absurd h (k.encode_unenveloped.ne_tenant t _)
  | tenant s =>
    cases t with
    | legacyUnscoped => exact absurd h.symm (l.encode_unenveloped.ne_tenant s _)
    | tenant t => exact congrArg tenant (tenant_eq_of_isPrefix ⟨[], by rw [List.append_nil, h]⟩)

/-- **Tenant isolation.**  Distinct scopes never share a key, of either family; a tenant scope
    strips a tenant's key exactly when it is its own, and then returns the logical bytes; and
    the prefix one tenant scans with, whatever logical prefix follows the envelope, starts no
    key of another tenant. -/
theorem scopes_isolated (s t : DataScope) (a b : TenantId) (k l : LogicalKey) :
    (s ≠ t → k.toBytes s ≠ l.toBytes t) ∧
    (((tenant a).stripKey (l.toBytes (tenant b))).isSome ↔ tenant a = tenant b) ∧
    (tenant a = tenant b → (tenant a).stripKey (l.toBytes (tenant b)) = some l.encode) ∧
    (tenant a ≠ tenant b → ∀ logicalPrefix : Bytes,
      ¬ (tenant a).dataPrefix logicalPrefix <+: l.toBytes (tenant b)) := by
  have hstrip : (tenant a).stripKey (l.toBytes (tenant b)) = if b = a then some l.encode else none := by
    rw [LogicalKey.toBytes_eq]
    simp [stripKey, stripTenantEnvelope_envelope]
  refine ⟨fun hne heq => hne (LogicalKey.scope_eq_of_toBytes_eq heq), ?_, ?_, ?_⟩
  · rw [hstrip]
    by_cases hba : b = a
    · simp [hba]
    · have hab : a ≠ b := fun h => hba h.symm
      simp [hba, hab]
  · intro heq
    rw [hstrip, if_pos (DataScope.tenant.inj heq).symm]
  · intro hne logicalPrefix hpre
    rw [LogicalKey.toBytes_eq] at hpre
    exact hne (congrArg tenant (tenant_eq_of_isPrefix hpre))

/-- The legacy scope strips a tenant's key too, and returns the whole physical key. -/
theorem legacy_strips_tenant_key :
    ∃ (t : TenantId) (k : LogicalKey),
      legacyUnscoped ≠ tenant t ∧
      (legacyUnscoped.stripKey (k.toBytes (tenant t))).isSome ∧
      legacyUnscoped.stripKey (k.toBytes (tenant t)) ≠ some k.encode :=
  ⟨⟨1⟩, .data (.nodeProperty 7), by decide, by decide, by decide⟩

end HelixDb.Keys
