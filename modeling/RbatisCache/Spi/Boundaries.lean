import RbatisCache.Spi.Sample

/-! Which inputs share a digest. The hash input holds every component behind its length, so the
digest determines them all, but a missing tenant is hashed as the tenant `"-"`. -/
namespace RbatisCache

/-! ### The hash input is uniquely decodable -/

private theorem foldl_updateComponent (hasher : Bytes) (components : List Bytes) :
    components.foldl updateComponent hasher = hasher ++ components.flatMap frame := by
  induction components generalizing hasher with
  | nil => exact (List.append_nil hasher).symm
  | cons bytes components ih =>
    rw [List.foldl_cons, ih, updateComponent, List.flatMap_cons, List.append_assoc]

/-- The updates over a list determine the list, and the updates over one list start those over
another one exactly if the one list starts the other. -/
theorem updates_decodable {as bs : List Bytes} (ha : ∀ a ∈ as, a.length < 2 ^ 64)
    (hb : ∀ b ∈ bs, b.length < 2 ^ 64) :
    (as.foldl updateComponent [] = bs.foldl updateComponent [] → as = bs) ∧
    (as.foldl updateComponent [] <+: bs.foldl updateComponent [] ↔ as <+: bs) ∧
    (bs.foldl updateComponent [] <+: as.foldl updateComponent [] ↔ bs <+: as) := by
  simp only [foldl_updateComponent, List.nil_append]
  exact ⟨frames_inj ha hb, frame_prefixCode.flatMap_prefix_iff ha hb,
    frame_prefixCode.flatMap_prefix_iff hb ha⟩

/-- A component that spells out two frames is not read as the two components in them. -/
theorem nested_frames_kept_apart :
    ¬ [frame [1] ++ frame [2]].foldl updateComponent [] <+: [[1], [2]].foldl updateComponent [] := by
  intro h
  have hpre : [frame [1] ++ frame [2]] <+: [[1], [2]] :=
    (updates_decodable (by decide) (by decide)).2.1.mp h
  exact absurd hpre (by decide)

/-! ### Boundaries -/

/-- Two inputs within the same boundaries but for the tenant. -/
structure CacheKeyInput.AgreesOnRest (parser : SqlParser) (a b : CacheKeyInput) : Prop where
  version : a.version = b.version
  dataSource : a.dataSource = b.dataSource
  driver : a.driver = b.driver
  nameSpace : a.nameSpace = b.nameSpace
  statementId : a.statementId = b.statementId
  canonicalSql : (SqlMetadata.parse parser a.sql).map SqlMetadata.canonicalSql =
    (SqlMetadata.parse parser b.sql).map SqlMetadata.canonicalSql
  parameters : a.parameters = b.parameters

/-- Two inputs within the same boundaries. -/
structure CacheKeyInput.Agrees (parser : SqlParser) (a b : CacheKeyInput) : Prop
    extends a.AgreesOnRest parser b where
  tenant : a.tenant = b.tenant

/-- One input has no tenant and the other one the tenant `"-"`. -/
def CacheKeyInput.DefaultTenant (a b : CacheKeyInput) : Prop :=
  a.tenant = none ∧ b.tenant = some "-" ∨ a.tenant = some "-" ∧ b.tenant = none

section
variable {P : Type} {X : Externals P} {a b : CacheKeyInput} {ma mb : SqlMetadata} {g h : UInt64}

theorem CacheKeyInput.tenant_of_getD (ht : a.tenant.getD "-" = b.tenant.getD "-") :
    a.tenant = b.tenant ∨ a.DefaultTenant b := by
  unfold CacheKeyInput.DefaultTenant
  cases ha : a.tenant with
  | none =>
    cases hb : b.tenant with
    | none => exact .inl rfl
    | some t =>
      rw [ha, hb] at ht
      exact .inr (.inl ⟨rfl, congrArg some ht.symm⟩)
  | some s =>
    cases hb : b.tenant with
    | none =>
      rw [ha, hb] at ht
      exact .inr (.inr ⟨congrArg some ht, rfl⟩)
    | some t =>
      rw [ha, hb] at ht
      exact .inl (congrArg some ht)

theorem CacheKeyInput.getD_of_defaultTenant (hd : a.DefaultTenant b) :
    a.tenant.getD "-" = b.tenant.getD "-" := by
  rcases hd with ⟨ha, hb⟩ | ⟨ha, hb⟩
  · rw [ha, hb]
    rfl
  · rw [ha, hb]
    rfl

/-- Equal components are equal boundaries, except that the default tenant is not told from an
absent one. -/
theorem CacheKeyInput.agrees_of_components (pa : SqlMetadata.parse X.parser a.sql = .ok ma)
    (pb : SqlMetadata.parse X.parser b.sql = .ok mb)
    (hc : a.components ma.canonicalSql = b.components mb.canonicalSql)
    (hp : a.parameters = b.parameters) :
    a.AgreesOnRest X.parser b ∧ (a.tenant = b.tenant ∨ a.DefaultTenant b) := by
  simp only [CacheKeyInput.components, List.cons.injEq, and_true] at hc
  obtain ⟨hversion, hsource, hdriver, htenant, hspace, hstatement, hsql⟩ := hc
  refine ⟨⟨hversion, hsource, hdriver, hspace, hstatement, ?_, hp⟩, tenant_of_getD htenant⟩
  rw [pa, pb]
  exact congrArg Except.ok hsql

theorem CacheKeyInput.stream_of_defaultTenant (pa : SqlMetadata.parse X.parser a.sql = .ok ma)
    (pb : SqlMetadata.parse X.parser b.sql = .ok mb) (hr : a.AgreesOnRest X.parser b)
    (hd : a.DefaultTenant b) : a.stream ma.canonicalSql g = b.stream mb.canonicalSql g := by
  have hsql := hr.canonicalSql
  rw [pa, pb] at hsql
  simp only [CacheKeyInput.stream, CacheKeyInput.components, hr.version, hr.dataSource, hr.driver,
    hr.nameSpace, hr.statementId, hr.parameters, getD_of_defaultTenant hd, Except.ok.inj hsql]

/-- Over a collision-free hash, the digests of two inputs keep all their boundaries and the
generations apart, unless the inputs differ exactly in that one has no tenant and the other one the
tenant `"-"`. -/
theorem CacheKey.build_isolates_iff (hash : Function.Injective X.blake3)
    (pa : SqlMetadata.parse X.parser a.sql = .ok ma)
    (pb : SqlMetadata.parse X.parser b.sql = .ok mb) (fa : a.Fits X.parser) (fb : b.Fits X.parser) :
    (∀ g h ka kb, CacheKey.build X a g = .ok ka → CacheKey.build X b h = .ok kb →
      ka.digest = kb.digest → a.Agrees X.parser b ∧ g = h) ↔
    ¬ (a.DefaultTenant b ∧ a.AgreesOnRest X.parser b) := by
  constructor
  · rintro isolates ⟨hd, hr⟩
    obtain ⟨ka, hka⟩ := CacheKey.build_of_parse (X := X) pa 0
    obtain ⟨kb, hkb⟩ := CacheKey.build_of_parse (X := X) pb 0
    have hdigest : ka.digest = kb.digest := by
      obtain ⟨m, hm, rfl⟩ := CacheKey.build_ok hka
      obtain ⟨n, hn, rfl⟩ := CacheKey.build_ok hkb
      exact congrArg (fun s => X.blake3 (s.flatMap frame))
        (CacheKeyInput.stream_of_defaultTenant hm hn hr hd)
    have htenant := (isolates 0 0 ka kb hka hkb hdigest).1.tenant
    rcases hd with ⟨ha, hb⟩ | ⟨ha, hb⟩
    · rw [ha, hb] at htenant
      cases htenant
    · rw [ha, hb] at htenant
      cases htenant
  · intro apart g h ka kb hka hkb hdigest
    obtain ⟨m, n, hm, hn, hs⟩ := CacheKey.stream_of_digest hash hka hkb fa fb hdigest
    obtain ⟨hc, hg, hp⟩ := CacheKeyInput.stream_inj hs
    obtain ⟨hr, ht | hd⟩ := CacheKeyInput.agrees_of_components hm hn hc hp
    · exact ⟨⟨hr, ht⟩, hg⟩
    · exact absurd ⟨hd, hr⟩ apart

end

/-- Two tenants do not share a digest. -/
theorem tenants_kept_apart : ∃ ka kb,
    CacheKey.build Sample.externals { Sample.keyInput with tenant := some "a" } 0 = .ok ka ∧
    CacheKey.build Sample.externals { Sample.keyInput with tenant := some "b" } 0 = .ok kb ∧
    ka.digest ≠ kb.digest := by
  have hparse : ∃ metadata, SqlMetadata.parse Sample.externals.parser "SELECT 1" = .ok metadata :=
    ⟨_, rfl⟩
  obtain ⟨metadata, parsed⟩ := hparse
  have isolates := (CacheKey.build_isolates_iff Sample.hash_injective
    (a := { Sample.keyInput with tenant := some "a" })
    (b := { Sample.keyInput with tenant := some "b" }) parsed parsed
    (Sample.fits_of_short rfl (by decide)) (Sample.fits_of_short rfl (by decide))).mpr fun hb => by
      rcases hb.1 with ⟨ha, -⟩ | ⟨-, hb⟩
      · cases ha
      · cases hb
  refine ⟨_, _, rfl, rfl, fun hd => ?_⟩
  have htenant := (isolates 0 0 _ _ rfl rfl hd).1.tenant
  exact absurd (Option.some.inj htenant) (by decide)

/-- A request without a tenant and one of the tenant `"-"` share a digest. -/
theorem absent_tenant_shares_digest : ∃ ka kb,
    CacheKey.build Sample.externals Sample.keyInput 0 = .ok ka ∧
    CacheKey.build Sample.externals { Sample.keyInput with tenant := some "-" } 0 = .ok kb ∧
    ka.digest = kb.digest ∧ Sample.keyInput.tenant ≠ some "-" ∧
    Function.Injective Sample.externals.blake3 :=
  ⟨_, _, rfl, rfl, rfl, by decide, Sample.hash_injective⟩

end RbatisCache
