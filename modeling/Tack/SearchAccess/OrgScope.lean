import Tack.Lib.Base64
import Tack.Lib.Frames
import Tack.Lib.Tx
import Tack.SearchAccess.Filter
import Tack.SearchAccess.Hierarchy

/-!
# Organization-scope search keys

A resource is indexed under one opaque key for each policy version, computed from its organization and
its entry point.  A caller who may search under an entry point receives the key of that organization and
entry point.  The caller sees the resource when the two lists of keys meet.

## Main definitions

* `SearchAccess.encodeKey` — a key: the version, a colon and the digest of the framed parts.
* `SearchAccess.Store` — what the readers of a compiler answer from.
* `SearchAccess.PolicySet.index`, `SearchAccess.compileSearchAccess` — the keys of a resource.
* `SearchAccess.PolicySet.query` — the keys of a caller.

## Main results

* `SearchAccess.encodeKey_version`, `SearchAccess.encodeKey_inj` — what a key determines.
* `SearchAccess.mem_keys_compileSearchAccess` — the keys of a resource are its grants.
* `SearchAccess.query_ok` — the key of a caller is the grant of an entry point.
* `SearchAccess.permits_exact` — keys separate grants.
-/

namespace Tack.SearchAccess

open Lib
open Nodes (NodeType)

/-! ### Keys -/

/-- What `sha256.Sum256` computes. -/
abbrev Digests := List Byte → List Byte

inductive AccessError
  | keyParts
  | unsupportedPolicy (version : Text)
  | indexInvalid
  | authorityMissing (resourceId : UUID)
  | authorityMismatch (resourceId : UUID)
  | readFailed
  | defect (defect : HierarchyDefect)
  | accessInvalid (resourceId : UUID)
  | queryInvalid
  | accessDenied
  | versionLength
  | keyCount
  | keysUnsorted
  | keyLength
  deriving DecidableEq

/-- `StableVersion`. -/
def stableVersion : Text := utf8 "org-scope-v1".toList

/-- `RotatedVersion`. -/
def rotatedVersion : Text := utf8 "org-scope-v2".toList

/-- The byte of a colon. -/
def colon : Byte := 58

/-- `EncodeKey`. -/
def encodeKey (sha : Digests) (version : Text) (parts : List (List Byte)) : Except AccessError Text :=
  if version = [] ∨ parts = [] then throw .keyParts
  else if [] ∈ parts then throw .keyParts
  else pure (version ++ colon :: utf8 (base64RawURLEncode (sha (frames (version :: parts)))))

/-! ### The store and its readers -/

/-- The fields of a node view that access reads. -/
structure View where
  orgId : UUID
  nodeType : String

/-- What the node, type and relationship readers answer from. -/
structure Store where
  /-- `NodeReader.Get`. -/
  get : UUID → Option View
  /-- `NodeReader.Resolve`: the organization of a node. -/
  resolve : UUID → Option UUID
  /-- `TypeReader.TypeByKey`. -/
  typeByKey : UUID → String → Option NodeType
  /-- `RelationshipReader.EdgesFrom`: the pages of `child_of` targets of a node. -/
  edgesFrom : OrgNode → List (List UUID)

/-- `childOfs`: every page of targets. -/
def Store.childOfs (store : Store) (key : OrgNode) : List UUID :=
  (store.edgesFrom key).foldl (fun targets page => targets ++ page) []

/-- The types that one read of ancestors has seen, by type key. -/
abbrev Kinds := String → Option (Option NodeType)

/-- `typeByKey`. -/
def Store.cachedType (store : Store) (orgId : UUID) (typeKey : String) (kinds : Kinds) :
    Option NodeType × Kinds :=
  match kinds typeKey with
  | some kind => (kind, kinds)
  | none =>
    (store.typeByKey orgId typeKey,
      Function.update kinds typeKey (some (store.typeByKey orgId typeKey)))

/-- The state of a node of the organization, with its type. -/
def Store.stateOf (store : Store) (key : OrgNode) (view : View) (kind : Option NodeType) :
    AncestorState :=
  ⟨true, view.orgId, view.nodeType, kind,
    if kind.any fun k => featureIsEntryPoint ∉ k.features then store.childOfs key else []⟩

/-- `compilerHierarchy.Ancestors`: the states of the nodes, each type read once. -/
def Store.ancestors (store : Store) : List OrgNode → Kinds → Ancestors → Ancestors
  | [], _, states => states
  | key :: nodes, kinds, states =>
    match store.get key.nodeId with
    | none => store.ancestors nodes kinds (Function.update states key (some .zero))
    | some view =>
      if view.orgId ≠ key.orgId then
        store.ancestors nodes kinds
          (Function.update states key (some ⟨true, view.orgId, "", none, []⟩))
      else
        let cached := store.cachedType key.orgId view.nodeType kinds
        store.ancestors nodes cached.2
          (Function.update states key (some (store.stateOf key view cached.1)))

def compilerHierarchy (store : Store) : HierarchyReader Empty := fun nodes =>
  .ok (store.ancestors nodes (fun _ => none) fun _ => none)

/-! ### Compilers -/

/-- `IndexAccessRequest`. -/
structure IndexAccessRequest where
  version : Text
  organizationId : UUID
  resourceId : UUID
  generation : ℤ

/-- `SearchAccess`. -/
structure CompiledAccess where
  versions : List Text
  keys : List Text
  generation : ℤ
  deriving DecidableEq

/-- `AccessRequest`. -/
structure AccessRequest where
  version : Text
  principalId : UUID
  authorityId : UUID
  entryPointId : UUID
  memberOrganizations : List UUID

/-- `OrgScopeCompiler`. -/
structure OrgScopeCompiler where
  version : Text
  store : Store

/-- A computation that may refuse, or run out of fuel on the way up a hierarchy. -/
abbrev Compile := ExceptT AccessError Option

namespace OrgScopeCompiler

variable (sha : Digests) (c : OrgScopeCompiler)

/-- `GrantKey`. -/
def grantKey (orgId entryPointId : UUID) : Except AccessError Text :=
  encodeKey sha c.version [orgId.bytes, entryPointId.bytes]

/-- `ResourceAuthority`. -/
def resourceAuthority (resourceId : UUID) : Except AccessError UUID :=
  match c.store.resolve resourceId with
  | none => throw (.authorityMissing resourceId)
  | some orgId => if orgId = .nil then throw (.authorityMissing resourceId) else pure orgId

/-- `entryPoint`. -/
def entryPoint (fuel : ℕ) (orgId resourceId : UUID) : Compile UUID :=
  ExceptT.mk ((entryPoints (compilerHierarchy c.store) fuel [⟨orgId, resourceId⟩]).map fun out =>
    match out with
    | .error _ => .error .readFailed
    | .ok result =>
      match result.defects ⟨orgId, resourceId⟩ with
      | some defect => .error (.defect defect)
      | none => .ok ((result.entries ⟨orgId, resourceId⟩).getD .nil))

/-- `Index`. -/
def index (fuel : ℕ) (request : IndexAccessRequest) : Compile CompiledAccess := do
  liftExcept (refuseIf (request.version ≠ c.version ∨ request.organizationId = .nil ∨
    request.resourceId = .nil ∨ request.generation < 0) AccessError.indexInvalid)
  let authority ← liftExcept (c.resourceAuthority request.resourceId)
  liftExcept (refuseIf (authority ≠ request.organizationId) (AccessError.authorityMismatch request.resourceId))
  let entryPointId ← c.entryPoint fuel request.organizationId request.resourceId
  let key ← liftExcept (c.grantKey sha request.organizationId entryPointId)
  pure ⟨[request.version], [key], request.generation⟩

/-- `EntryAuthority`. -/
def entryAuthority (entryPointId : UUID) : Except AccessError UUID :=
  match c.store.get entryPointId with
  | none => throw .accessDenied
  | some view =>
    if view.orgId = .nil then throw .accessDenied
    else match c.store.typeByKey view.orgId view.nodeType with
      | none => throw .accessDenied
      | some kind =>
        if featureIsEntryPoint ∈ kind.features then pure view.orgId else throw .accessDenied

/-- `Query`. -/
def query (request : AccessRequest) : Except AccessError (List Text) := do
  refuseIf (request.version ≠ c.version ∨ request.principalId = .nil ∨ request.entryPointId = .nil)
    .queryInvalid
  let authority ← c.entryAuthority request.entryPointId
  refuseIf (authority ≠ request.authorityId ∨ authority ∉ request.memberOrganizations) .accessDenied
  let key ← encodeKey sha request.version [authority.bytes, request.entryPointId.bytes]
  pure [key]

end OrgScopeCompiler

/-! ### Filters -/

/-- `MaxAccessKeys`. -/
def maxAccessKeys : ℕ := 64

/-- `MaxAccessValueBytes`. -/
def maxAccessValueBytes : ℕ := 256

/-- `hasDuplicate`: two equal neighbours. -/
def hasDuplicate : List Text → Bool
  | a :: b :: values => b == a || hasDuplicate (b :: values)
  | _ => false

/-- `ValidateAccessFilter`. -/
def validateAccessFilter (filter : AccessFilter) : Except AccessError Unit := do
  refuseIf (filter.version = [] ∨ filter.version.length > maxAccessValueBytes) .versionLength
  refuseIf (filter.keys = [] ∨ filter.keys.length > maxAccessKeys) .keyCount
  refuseIf (!slicesIsSorted filter.keys ∨ hasDuplicate filter.keys) .keysUnsorted
  refuseIf (∃ key ∈ filter.keys, key = [] ∨ key.length > maxAccessValueBytes) .keyLength

/-! ### The policy set -/

/-- `PolicySet`. -/
structure PolicySet where
  compilers : Text → Option OrgScopeCompiler

/-- `NewPolicySet`. -/
def newPolicySet (store : Store) : PolicySet where
  compilers version :=
    if version = stableVersion ∨ version = rotatedVersion then some ⟨version, store⟩ else none

namespace PolicySet

variable (sha : Digests) (policies : PolicySet)

/-- `compiler`. -/
def compiler (version : Text) : Except AccessError OrgScopeCompiler :=
  match policies.compilers version with
  | none => throw (.unsupportedPolicy version)
  | some compiler => pure compiler

/-- Versions and keys are nonempty, sorted, unique and start with the version of the request. -/
def validAccess (request : IndexAccessRequest) (access : CompiledAccess) : Bool :=
  !(access.versions.isEmpty || access.keys.isEmpty || decide (access.generation < 0) ||
    !slicesIsSorted access.versions || !slicesIsSorted access.keys ||
    access.versions.contains [] || access.keys.contains [] ||
    (slicesCompact access.versions).length != access.versions.length ||
    (slicesCompact access.keys).length != access.keys.length ||
    access.versions.head? != some request.version)

/-- `Index`. -/
def index (fuel : ℕ) (request : IndexAccessRequest) : Compile CompiledAccess := do
  let compiler ← liftExcept (policies.compiler request.version)
  let access ← compiler.index sha fuel request
  liftExcept (refuseIf (!validAccess request access) (AccessError.accessInvalid request.resourceId))
  pure access

/-- `Query`. -/
def query (request : AccessRequest) : Except AccessError AccessFilter := do
  let compiler ← policies.compiler request.version
  let keys ← compiler.query sha request
  let filter : AccessFilter := ⟨request.version, slicesCompact (slicesSort keys)⟩
  validateAccessFilter filter
  pure filter

end PolicySet

/-- The write versions that `compileSearchAccess` compiles. -/
def writeVersions (versions : List Text) : List Text :=
  if versions = [] then [stableVersion] else versions

/-- The keys of a node under one version after the other. -/
def compileKeys (sha : Digests) (policies : PolicySet) (fuel : ℕ) (orgId nodeId : UUID)
    (generation : ℤ) : List Text → List Text → Compile (List Text)
  | [], keys => pure keys
  | version :: versions, keys => do
    let compiled ← policies.index sha fuel ⟨version, orgId, nodeId, generation⟩
    compileKeys sha policies fuel orgId nodeId generation versions (keys ++ compiled.keys)

/-- `compileSearchAccess`: the keys under every write version, merged. -/
def compileSearchAccess (sha : Digests) (policies : PolicySet) (fuel : ℕ) (versions : List Text)
    (orgId nodeId : UUID) (generation : ℤ) : Compile CompiledAccess := do
  let keys ← compileKeys sha policies fuel orgId nodeId generation (writeVersions versions) []
  pure ⟨slicesCompact (slicesSort (writeVersions versions)), slicesCompact (slicesSort keys), generation⟩

/-! ### Inversion -/

theorem compile_bind_ok {α β : Type} {x : Compile α} {f : α → Compile β} {b : β} :
    (x >>= f) = some (.ok b) ↔ ∃ a, x = some (.ok a) ∧ f a = some (.ok b) := by
  rcases x with _ | (e | a)
  · exact ⟨nofun, nofun⟩
  · exact ⟨nofun, nofun⟩
  · refine ⟨fun h => ⟨a, rfl, h⟩, ?_⟩
    rintro ⟨_, ⟨⟩, h⟩
    exact h

theorem liftExcept_ok {α : Type} {x : Except AccessError α} {a : α} :
    (liftExcept x : Compile α) = some (.ok a) ↔ x = .ok a := by
  cases x with
  | error e => exact ⟨nofun, nofun⟩
  | ok b =>
    refine ⟨?_, ?_⟩
    · rintro ⟨⟩
      rfl
    · rintro ⟨⟩
      rfl

/-! ### What a key determines -/

theorem colon_notMem_base64URL : ∀ n < 64, colon ∉ utf8Char (base64URLChar (base64Char n)) := by
  decide +kernel

theorem colon_notMem_digest (bytes : List Byte) : colon ∉ utf8 (base64RawURLEncode bytes) := by
  intro h
  obtain ⟨d, hd, hcolon⟩ := List.mem_flatMap.mp h
  obtain ⟨e, he, rfl⟩ := List.mem_map.mp hd
  obtain ⟨hmem, hne⟩ := List.mem_filter.mp he
  obtain ⟨n, hn, rfl⟩ := (mem_base64Encode hmem).resolve_left (by simpa using hne)
  exact colon_notMem_base64URL n hn hcolon

/-- What stands after the last separator is determined. -/
theorem append_cons_inj_of_notMem_right {α : Type*} [DecidableEq α] {sep : α} {a b c d : List α}
    (hb : sep ∉ b) (hd : sep ∉ d) (h : a ++ sep :: b = c ++ sep :: d) : a = c ∧ b = d := by
  have hlast : ∀ {x y : List α}, sep ∉ y → (x ++ sep :: y).reverse.takeWhile (· ≠ sep) = y.reverse := by
    intro x y hy
    have hall : ∀ z ∈ y.reverse, (decide (z ≠ sep)) = true := by
      intro z hz
      simpa using fun heq : z = sep => hy (heq ▸ List.mem_reverse.mp hz)
    rw [List.reverse_append, List.reverse_cons, List.append_assoc, List.takeWhile_append_of_pos hall]
    simp
  have hbd : b = d := List.reverse_injective (by rw [← hlast hb, h, hlast hd])
  subst hbd
  exact ⟨(List.append_inj' h rfl).1, rfl⟩

variable {sha : Digests} {version key : Text} {orgId entryPointId nodeId : UUID} {filter : AccessFilter}
  {store : Store} {c : OrgScopeCompiler} {fuel : ℕ} {access : CompiledAccess} {generation : ℤ}
  {versions : List Text}

theorem encodeKey_ok {parts : List (List Byte)} (h : encodeKey sha version parts = .ok key) :
    key = version ++ colon :: utf8 (base64RawURLEncode (sha (frames (version :: parts)))) := by
  rw [encodeKey] at h
  split_ifs at h
  exact (Except.ok.inj h).symm

/-- **Keys of different versions differ**, whatever the digests. -/
theorem encodeKey_version {version' : Text}
    {parts parts' : List (List Byte)} (h : encodeKey sha version parts = .ok key)
    (h' : encodeKey sha version' parts' = .ok key) : version = version' :=
  (append_cons_inj_of_notMem_right (colon_notMem_digest _) (colon_notMem_digest _)
    ((encodeKey_ok h).symm.trans (encodeKey_ok h'))).1

/-- The bytes that are hashed for the grant of an entry point. -/
def grantInput (version : Text) (orgId entryPointId : UUID) : List Byte :=
  frames [version, orgId.bytes, entryPointId.bytes]

/-- **A key determines its grant**, unless the inputs of the two grants collide. -/
theorem encodeKey_inj {orgId' entryPointId' : UUID}
    (hsha : sha (grantInput version orgId entryPointId) = sha (grantInput version orgId' entryPointId') →
      grantInput version orgId entryPointId = grantInput version orgId' entryPointId')
    (h : encodeKey sha version [orgId.bytes, entryPointId.bytes] = .ok key)
    (h' : encodeKey sha version [orgId'.bytes, entryPointId'.bytes] = .ok key) :
    orgId = orgId' ∧ entryPointId = entryPointId' := by
  have hdigest := (append_cons_inj_of_notMem_right (colon_notMem_digest _) (colon_notMem_digest _)
    ((encodeKey_ok h).symm.trans (encodeKey_ok h'))).2
  have hframes := hsha (base64RawURLEncode_injective (utf8_injective hdigest))
  -- the version comes first on both sides, so only the frames of the two IDs are left
  have hrest : frames [orgId.bytes, entryPointId.bytes] = frames [orgId'.bytes, entryPointId'.bytes] :=
    List.append_cancel_left hframes
  have hsmall : ∀ a b : UUID, ∀ p ∈ [a.bytes, b.bytes], p.length < 2 ^ 64 := by
    intro a b p hp
    simp only [List.mem_cons, List.not_mem_nil, or_false] at hp
    rcases hp with rfl | rfl <;> simp [UUID.length_bytes]
  have hparts := frames_injective (hsmall _ _) (hsmall _ _) hrest
  simp only [List.cons.injEq, and_true] at hparts
  exact ⟨UUID.bytes_injective hparts.1, UUID.bytes_injective hparts.2⟩

/-! ### Filters -/

theorem keys_sorted_of_validate (h : validateAccessFilter filter = .ok ()) :
    filter.keys.Pairwise (· ≤ ·) := by
  obtain ⟨_, -, h⟩ := except_bind_ok.mp h
  obtain ⟨_, -, h⟩ := except_bind_ok.mp h
  obtain ⟨_, hsorted, -⟩ := except_bind_ok.mp h
  rw [refuseIf_ok, not_or] at hsorted
  exact slicesIsSorted_iff.mp (by simpa using hsorted.1)

/-- **A valid filter permits the key lists that meet its own.** -/
theorem permits_iff_of_validate (h : validateAccessFilter filter = .ok ()) (resourceKeys : List Text) :
    filter.permits resourceKeys = true ↔ ∃ key ∈ resourceKeys, key ∈ filter.keys := by
  simp only [AccessFilter.permits, List.any_eq_true,
    binarySearch_found_iff (keys_sorted_of_validate h)]

/-! ### The hierarchy that a compiler reads -/

/-- The hierarchy of a store. -/
def Store.state (store : Store) (key : OrgNode) : AncestorState :=
  match store.get key.nodeId with
  | none => .zero
  | some view =>
    if view.orgId ≠ key.orgId then ⟨true, view.orgId, "", none, []⟩
    else store.stateOf key view (store.typeByKey key.orgId view.nodeType)

/-- The cached types are those of the organization. -/
def Kinds.Of (store : Store) (orgId : UUID) (kinds : Kinds) : Prop :=
  ∀ typeKey kind, kinds typeKey = some kind → kind = store.typeByKey orgId typeKey

theorem cachedType_spec {kinds : Kinds} (h : kinds.Of store orgId) (typeKey : String) :
    (store.cachedType orgId typeKey kinds).1 = store.typeByKey orgId typeKey ∧
      (store.cachedType orgId typeKey kinds).2.Of store orgId := by
  rw [Store.cachedType]
  cases hkind : kinds typeKey with
  | some kind => exact ⟨h typeKey kind hkind, h⟩
  | none =>
    refine ⟨rfl, fun key kind hkey => ?_⟩
    by_cases heq : key = typeKey
    · subst heq
      simpa using hkey.symm
    · exact h key kind (by simpa [heq] using hkey)

/-- The types are cached by their key alone, so the states are right within one organization. -/
theorem ancestors_eq (store : Store) {nodes : List OrgNode} {kinds : Kinds}
    (hnodes : ∀ n ∈ nodes, n.orgId = orgId) (h : kinds.Of store orgId) (states : Ancestors) :
    store.ancestors nodes kinds states = fun key =>
      if key ∈ nodes then some (store.state key) else states key := by
  induction nodes generalizing kinds states with
  | nil => rfl
  | cons key nodes ih =>
    obtain rfl : key.orgId = orgId := hnodes key List.mem_cons_self
    have hrest : ∀ n ∈ nodes, n.orgId = key.orgId := fun n hn => hnodes n (List.mem_cons_of_mem _ hn)
    have hupdate : (fun k => if k ∈ nodes then some (store.state k) else
        Function.update states key (some (store.state key)) k) =
        fun k => if k ∈ key :: nodes then some (store.state k) else states k := by
      funext k
      by_cases hk : k = key
      · subst hk
        simp
      · simp [hk]
    rw [← hupdate, Store.ancestors]
    cases hget : store.get key.nodeId with
    | none =>
      rw [ih hrest h, Store.state, hget]
    | some view =>
      by_cases horg : view.orgId ≠ key.orgId
      · simp only [if_pos horg]
        rw [ih hrest h, Store.state, hget]
        simp only [if_pos horg]
      · obtain ⟨hkind, hkinds⟩ := cachedType_spec h view.nodeType
        simp only [if_neg horg]
        rw [ih hrest hkinds, hkind, Store.state, hget]
        simp only [if_neg horg]

theorem answersWithin_compilerHierarchy (store : Store) (orgId : UUID) :
    AnswersWithin {orgId} (compilerHierarchy store) store.state := fun nodes hnodes =>
  ⟨_, rfl, fun key hkey => by
    rw [ancestors_eq store hnodes fun _ _ h => by cases h]
    exact if_pos hkey⟩

/-- The entry point that a compiler resolves. -/
theorem entryPoint_ok {resourceId : UUID} (h : c.entryPoint fuel orgId resourceId = some (.ok entryPointId)) :
    Resolves c.store.state orgId resourceId entryPointId := by
  obtain ⟨out, hout, hresult⟩ := Option.map_eq_some_iff.mp h
  obtain ⟨result, hexact, -, hall⟩ := entryPoints_single (r := ⟨orgId, resourceId⟩)
    (answersWithin_compilerHierarchy c.store orgId)
  obtain rfl := hall fuel out hout
  simp only at hresult
  cases hdefect : result.defects ⟨orgId, resourceId⟩ with
  | some defect =>
    rw [hdefect] at hresult
    cases hresult
  | none =>
    rw [hdefect] at hresult
    -- without a defect there is an entry
    have hsome : ∃ e, Resolves c.store.state orgId resourceId e := by
      by_contra hnone
      simpa [hdefect] using hexact.defect.mpr hnone
    obtain ⟨e, he⟩ := hsome
    rw [(hexact.entry e).mpr he] at hresult
    cases hresult
    exact he

/-! ### The keys of a resource -/

theorem compiler_newPolicySet (h : (newPolicySet store).compiler version = .ok c) : c = ⟨version, store⟩ := by
  rw [PolicySet.compiler, newPolicySet] at h
  split at h
  · cases h
  · next heq =>
    cases h
    exact (Option.some.inj (Option.ite_none_right_eq_some.mp heq).2).symm

/-- **What `Index` compiles** is the grant of the entry point. -/
theorem index_ok {request : IndexAccessRequest}
    (h : (newPolicySet store).index sha fuel request = some (.ok access)) :
    ∃ entryPointId key, store.resolve request.resourceId = some request.organizationId ∧
      Resolves store.state request.organizationId request.resourceId entryPointId ∧
      encodeKey sha request.version [request.organizationId.bytes, entryPointId.bytes] = .ok key ∧
      access.keys = [key] := by
  obtain ⟨c, hc, h⟩ := compile_bind_ok.mp h
  obtain rfl := compiler_newPolicySet (liftExcept_ok.mp hc)
  obtain ⟨access', hcompiled, h⟩ := compile_bind_ok.mp h
  obtain ⟨_, -, h⟩ := compile_bind_ok.mp h
  cases h
  obtain ⟨_, -, hcompiled⟩ := compile_bind_ok.mp hcompiled
  obtain ⟨authority, hauthority, hcompiled⟩ := compile_bind_ok.mp hcompiled
  obtain ⟨_, hsame, hcompiled⟩ := compile_bind_ok.mp hcompiled
  obtain ⟨entryPointId, hentry, hcompiled⟩ := compile_bind_ok.mp hcompiled
  obtain ⟨key, hkey, hcompiled⟩ := compile_bind_ok.mp hcompiled
  cases hcompiled
  rw [liftExcept_ok, refuseIf_ok, not_not] at hsame
  subst hsame
  refine ⟨entryPointId, key, ?_, entryPoint_ok hentry, liftExcept_ok.mp hkey, rfl⟩
  rw [liftExcept_ok, OrgScopeCompiler.resourceAuthority] at hauthority
  split at hauthority
  · cases hauthority
  · next hresolve =>
    split_ifs at hauthority
    cases hauthority
    exact hresolve

/-- The keys that the versions add, one after the other. -/
theorem compileKeys_ok {keys merged : List Text}
    (h : compileKeys sha (newPolicySet store) fuel orgId nodeId generation versions keys =
      some (.ok merged)) (hentry : Resolves store.state orgId nodeId entryPointId)
    (key : Text) : key ∈ merged ↔ key ∈ keys ∨ ∃ version ∈ versions,
      encodeKey sha version [orgId.bytes, entryPointId.bytes] = .ok key := by
  induction versions generalizing keys with
  | nil =>
    cases h
    simp
  | cons version versions ih =>
    obtain ⟨compiled, hindex, h⟩ := compile_bind_ok.mp h
    obtain ⟨e, k, -, he, hk, hkeys⟩ := index_ok hindex
    obtain rfl := hentry.unique he
    have hone : encodeKey sha version [orgId.bytes, entryPointId.bytes] = .ok key ↔ key = k := by
      refine ⟨fun h => Except.ok.inj (h.symm.trans hk), ?_⟩
      rintro rfl
      exact hk
    rw [ih h, hkeys, List.mem_append, List.mem_singleton, List.exists_mem_cons_iff, hone, or_assoc]

/-- A resource is compiled under at least one version, so it belongs to its organization and has an
entry point. -/
theorem compileKeys_authority {keys merged : List Text} (hversions : versions ≠ [])
    (h : compileKeys sha (newPolicySet store) fuel orgId nodeId generation versions keys =
      some (.ok merged)) :
    store.resolve nodeId = some orgId ∧ ∃ e, Resolves store.state orgId nodeId e := by
  cases versions with
  | nil => exact absurd rfl hversions
  | cons version versions =>
    obtain ⟨compiled, hindex, -⟩ := compile_bind_ok.mp h
    obtain ⟨e, -, hresolve, he, -⟩ := index_ok hindex
    exact ⟨hresolve, e, he⟩

theorem writeVersions_ne_nil (versions : List Text) : writeVersions versions ≠ [] := by
  rw [writeVersions]
  split
  · exact List.cons_ne_nil _ _
  · assumption

/-- **The keys of a resource** are the grants of its entry point under the write versions. -/
theorem mem_keys_compileSearchAccess
    (h : compileSearchAccess sha (newPolicySet store) fuel versions orgId nodeId generation =
      some (.ok access)) :
    store.resolve nodeId = some orgId ∧ ∃ entryPointId,
      Resolves store.state orgId nodeId entryPointId ∧ ∀ key, key ∈ access.keys ↔
        ∃ version ∈ writeVersions versions,
          encodeKey sha version [orgId.bytes, entryPointId.bytes] = .ok key := by
  obtain ⟨keys, hkeys, h⟩ := compile_bind_ok.mp h
  cases h
  obtain ⟨hresolve, e, he⟩ := compileKeys_authority (writeVersions_ne_nil versions) hkeys
  refine ⟨hresolve, e, he, fun key => ?_⟩
  rw [mem_slicesCompact_slicesSort, compileKeys_ok hkeys he]
  simp

/-! ### The key of a caller -/

theorem entryAuthority_ok
    (h : c.entryAuthority entryPointId = .ok orgId) : IsEntryPoint c.store.state orgId entryPointId := by
  rw [OrgScopeCompiler.entryAuthority] at h
  split at h
  · cases h
  · next view hview =>
    split_ifs at h
    split at h
    · cases h
    · next kind hkind =>
      split_ifs at h with hfeature
      cases h
      have hstate : c.store.state ⟨view.orgId, entryPointId⟩ =
          c.store.stateOf ⟨view.orgId, entryPointId⟩ view (some kind) := by
        rw [Store.state, hview]
        simp [hkind]
      exact ⟨kind, ⟨by rw [hstate]; rfl, by rw [hstate]; rfl, by rw [hstate]; rfl⟩, hfeature⟩

/-- **What `Query` returns** is the grant of an entry point of the authority. -/
theorem query_ok {request : AccessRequest} (h : (newPolicySet store).query sha request = .ok filter) :
    IsEntryPoint store.state request.authorityId request.entryPointId ∧
      validateAccessFilter filter = .ok () ∧
      ∃ key, encodeKey sha request.version [request.authorityId.bytes, request.entryPointId.bytes] =
        .ok key ∧ ∀ k, k ∈ filter.keys ↔ k = key := by
  obtain ⟨c, hc, h⟩ := except_bind_ok.mp h
  obtain rfl := compiler_newPolicySet hc
  obtain ⟨keys, hkeys, h⟩ := except_bind_ok.mp h
  obtain ⟨_, hvalid, h⟩ := except_bind_ok.mp h
  cases h
  obtain ⟨_, -, hkeys⟩ := except_bind_ok.mp hkeys
  obtain ⟨authority, hauthority, hkeys⟩ := except_bind_ok.mp hkeys
  obtain ⟨_, hmember, hkeys⟩ := except_bind_ok.mp hkeys
  obtain ⟨key, hkey, hkeys⟩ := except_bind_ok.mp hkeys
  cases hkeys
  rw [refuseIf_ok, not_or, not_not] at hmember
  obtain ⟨rfl, -⟩ := hmember
  refine ⟨entryAuthority_ok hauthority, hvalid, key, hkey, fun k => ?_⟩
  rw [mem_slicesCompact_slicesSort, List.mem_singleton]

/-! ### Keys separate grants -/

theorem permits_iff_grants {request : AccessRequest}
    (hindex : compileSearchAccess sha (newPolicySet store) fuel versions orgId nodeId generation =
      some (.ok access)) (hquery : (newPolicySet store).query sha request = .ok filter)
    (hsha : ∀ e, Resolves store.state orgId nodeId e →
      sha (grantInput request.version orgId e) =
        sha (grantInput request.version request.authorityId request.entryPointId) →
      grantInput request.version orgId e =
        grantInput request.version request.authorityId request.entryPointId) :
    filter.permits access.keys = true ↔ request.version ∈ writeVersions versions ∧
      store.resolve nodeId = some request.authorityId ∧
      Resolves store.state orgId nodeId request.entryPointId := by
  obtain ⟨hresolve, e, he, hkeys⟩ := mem_keys_compileSearchAccess hindex
  obtain ⟨-, hvalid, key, hkey, hfilter⟩ := query_ok hquery
  rw [permits_iff_of_validate hvalid]
  constructor
  · rintro ⟨k, hk, hk'⟩
    obtain rfl := (hfilter k).mp hk'
    obtain ⟨version, hversion, hgrant⟩ := (hkeys k).mp hk
    obtain rfl := encodeKey_version hgrant hkey
    obtain ⟨rfl, rfl⟩ := encodeKey_inj (hsha e he) hgrant hkey
    exact ⟨hversion, hresolve, he⟩
  · rintro ⟨hversion, hauthority, hentry⟩
    obtain rfl := he.unique hentry
    obtain rfl : orgId = request.authorityId := Option.some.inj (hresolve.symm.trans hauthority)
    exact ⟨key, (hkeys key).mpr ⟨_, hversion, hkey⟩, (hfilter key).mpr rfl⟩

/-- **Search keys separate grants.**  The digests need only differ where the grants of the resource
and of the caller do. -/
theorem permits_exact (sha : Digests) (store : Store) :
    (∀ fuel versions orgId nodeId generation access request filter,
      compileSearchAccess sha (newPolicySet store) fuel versions orgId nodeId generation =
        some (.ok access) →
      (newPolicySet store).query sha request = .ok filter →
      (∀ e, Resolves store.state orgId nodeId e →
        sha (grantInput request.version orgId e) =
          sha (grantInput request.version request.authorityId request.entryPointId) →
        grantInput request.version orgId e =
          grantInput request.version request.authorityId request.entryPointId) →
        (request.version ∈ writeVersions versions →
          (filter.permits access.keys = true ↔ store.resolve nodeId = some request.authorityId ∧
            Resolves store.state orgId nodeId request.entryPointId)) ∧
        (request.version ∉ writeVersions versions → filter.permits access.keys = false) ∧
        ((∀ e, Resolves store.state orgId nodeId e → ¬IsEntryPoint store.state orgId e) →
          filter.permits access.keys = false)) ∧
    (∀ version version' parts parts' key, encodeKey sha version parts = .ok key →
      encodeKey sha version' parts' = .ok key → version = version') ∧
    ∀ filter, validateAccessFilter filter = .ok () → ∀ resourceKeys,
      (filter.permits resourceKeys = true ↔ ∃ key ∈ resourceKeys, key ∈ filter.keys) := by
  refine ⟨?_, fun _ _ _ _ _ => encodeKey_version, fun _ => permits_iff_of_validate⟩
  intro fuel versions orgId nodeId generation access request filter hindex hquery hsha
  have hiff := permits_iff_grants hindex hquery hsha
  refine ⟨fun hversion => by rw [hiff]; simp [hversion], fun hversion => ?_, fun hnone => ?_⟩
  · rw [← Bool.not_eq_true, hiff]
    simp [hversion]
  · rw [← Bool.not_eq_true, hiff]
    rintro ⟨-, hauthority, hentry⟩
    have hresolve := (mem_keys_compileSearchAccess hindex).1
    obtain rfl : orgId = request.authorityId := Option.some.inj (hresolve.symm.trans hauthority)
    exact hnone _ hentry (query_ok hquery).1

/-- Node 4 under the entry point 5 of organization 1, which has another entry point 6. -/
def smallStore : Store where
  get id := if id = 4 then some ⟨1, "task"⟩ else if id = 5 ∨ id = 6 then some ⟨1, "workspace"⟩ else none
  resolve _ := some 1
  typeByKey _ key :=
    some ⟨1, 1, key, if key = "workspace" then [featureIsEntryPoint] else [], [], [], [], ""⟩
  edgesFrom key := if key.nodeId = 4 then [[5], [5]] else [[]]

theorem resolves_smallStore : Resolves smallStore.state 1 4 5 := by
  refine ⟨.single ⟨⟨_, ⟨rfl, rfl, rfl⟩, by decide, by decide +kernel⟩, by decide⟩, .inl ?_⟩
  exact ⟨_, ⟨rfl, rfl, rfl⟩, by decide⟩

theorem exists_filter {entryPointId : UUID} (hok : Except.isOk ((newPolicySet smallStore).query
      sampleDigest ⟨stableVersion, 7, 1, entryPointId, [1]⟩) = true) :
    ∃ filter, (newPolicySet smallStore).query sampleDigest ⟨stableVersion, 7, 1, entryPointId, [1]⟩ =
      .ok filter := by
  cases hquery : (newPolicySet smallStore).query sampleDigest ⟨stableVersion, 7, 1, entryPointId, [1]⟩ with
  | error err =>
    rw [hquery] at hok
    cases hok
  | ok filter => exact ⟨filter, rfl⟩

theorem permits_smallStore :
    ∃ access filter other,
      compileSearchAccess sampleDigest (newPolicySet smallStore) 6 [] 1 4 0 = some (.ok access) ∧
      (newPolicySet smallStore).query sampleDigest ⟨stableVersion, 7, 1, 5, [1]⟩ = .ok filter ∧
      (newPolicySet smallStore).query sampleDigest ⟨stableVersion, 7, 1, 6, [1]⟩ = .ok other ∧
      filter.permits access.keys = true ∧ other.permits access.keys = false := by
  obtain ⟨access, haccess⟩ : ∃ access,
      compileSearchAccess sampleDigest (newPolicySet smallStore) 6 [] 1 4 0 = some (.ok access) := by
    have hok : (compileSearchAccess sampleDigest (newPolicySet smallStore) 6 [] 1 4 0).run.any
        Except.isOk = true := by decide +kernel
    obtain ⟨out, hout, hisOk⟩ := (Option.any_eq_true _ _).mp hok
    cases out with
    | error err => cases hisOk
    | ok access => exact ⟨access, hout⟩
  obtain ⟨filter, hfilter⟩ := @exists_filter 5 (by decide +kernel)
  obtain ⟨other, hother⟩ := @exists_filter 6 (by decide +kernel)
  have hne : sampleDigest (grantInput stableVersion 1 5) ≠ sampleDigest (grantInput stableVersion 1 6) := by
    decide +kernel
  refine ⟨access, filter, other, haccess, hfilter, hother, ?_, ?_⟩
  · refine (((permits_exact sampleDigest smallStore).1 6 [] 1 4 0 access _ filter haccess hfilter
      fun e he _ => ?_).1 (by decide)).mpr ⟨rfl, resolves_smallStore⟩
    rw [he.unique resolves_smallStore]
  · have hiff := ((permits_exact sampleDigest smallStore).1 6 [] 1 4 0 access _ other haccess hother
      fun e he heq => absurd (he.unique resolves_smallStore ▸ heq) hne).1 (by decide)
    rw [← Bool.not_eq_true, hiff]
    rintro ⟨-, hsix⟩
    exact absurd (hsix.unique resolves_smallStore) (by decide)

end Tack.SearchAccess
