import Tack.Nodes.Db

/-!
# Reference keys

A reference is a text that a template of the node type renders; no two nodes of an organization hold
the same reference of a template.  The store keeps who holds each reference and which references each
node owns, and a write clears the references of its node before it claims the new ones.

## Main definitions

* `Nodes.ReferenceTemplate.render`, `Nodes.referenceKeysFor` — the references that a node type's
  templates render.
* `Nodes.writeReferenceKeys`, `Nodes.clearReferenceKeys`, `Nodes.Refs.lookupReference`.
* `Nodes.Refs.Bijective` — the two key families hold the same references.

## Main results

* `Nodes.Refs.writeReferenceKeys_bijective_iff` — a write keeps the families equal exactly when its
  list names no template with two references.
-/

namespace Tack.Nodes

open Lib

/-! ### Rendering -/

/-- What a template needs to render. -/
structure ReferenceRenderInput where
  nodeTypeKey : String
  props : Props
  /-- The reference of the nearest ancestor with a feature; empty when there is none. -/
  scopeRefs : String → String

/-- The verb `%q` for a text of printable characters. -/
def quoted (text : String) : String :=
  let escaped := text.toList.flatMap fun c => if c = '\x22' ∨ c = '\x5c' then ['\x5c', c] else [c]
  "\"" ++ String.ofList escaped ++ "\""

/-- A property value as reference text: a string that is not empty, or the digits of a number. -/
def referencePropertyString (raw : RawMessage) : Except String String :=
  if raw = "" then .error "property has no value"
  else match Json.parse raw.toList with
    | some (.str text) => if text = "" then .error "property is an empty string" else .ok text
    -- a null decodes into a string variable without a change
    | some .null => .error "property is an empty string"
    | some (.num number) => .ok (String.ofList number.text)
    | _ => .error s!"property value {raw} is neither a string nor a number"

def renderReferencePart (input : ReferenceRenderInput) : ReferencePart → Except String String
  | .literal value => .ok value
  | .nodeType =>
    if input.nodeTypeKey = "" then .error "node type part: node type key is empty"
    else .ok input.nodeTypeKey
  | .scopeRef feature =>
    if input.scopeRefs feature = "" then
      .error s!"scope reference part {quoted feature}: no ancestor declaring that feature has a reference"
    else .ok (input.scopeRefs feature)
  | .property name =>
    (referencePropertyString ((input.props.get name).getD "")).mapError fun reason =>
      s!"property part {quoted name}: {reason}"
  | .unknown kind => .error s!"unknown reference part kind {quoted kind}"

/-- The text of the parts in order. -/
def renderParts (input : ReferenceRenderInput) : List ReferencePart → Except String String
  | [] => .ok ""
  | part :: rest => do
    let segment ← renderReferencePart input part
    let output ← renderParts input rest
    return segment ++ output

def ReferenceTemplate.render (template : ReferenceTemplate) (input : ReferenceRenderInput) :
    Except String String :=
  (renderParts input template.parts).mapError fun reason => s!"render template {quoted template.name}: {reason}"

/-- One key for each template, in order. -/
def renderKeys (input : ReferenceRenderInput) : List ReferenceTemplate → Except String (List ReferenceKey)
  | [] => .ok []
  | template :: rest => do
    let encoded ← template.render input
    let keys ← renderKeys input rest
    return ⟨template.name, encoded⟩ :: keys

/-- The keys of a node; `none` stands for the nil list of a type without templates. -/
def referenceKeysFor (nodeType : NodeType) (scopeRefs : String → String) (props : Props) :
    Except String (Option (List ReferenceKey)) :=
  if nodeType.referenceTemplates = [] then .ok none
  else (renderKeys ⟨nodeType.typeKey, props, scopeRefs⟩ nodeType.referenceTemplates).map some

/-! ### The store -/

namespace Refs

/-- The references that a node owns. -/
def ownedBy (refs : Refs) (orgId nodeId : UUID) : List (OwnedKey × String) :=
  refs.owned.scan fun k => k.org == orgId && k.id == nodeId

/-- Clears the references that a node owns: the forward key that each entry names, then the entries. -/
def clearReferenceKeys (refs : Refs) (orgId nodeId : UUID) : Refs where
  forward := (refs.ownedBy orgId nodeId).foldl
    (fun forward p => forward.erase ⟨orgId, p.1.template, p.2⟩) refs.forward
  owned := refs.owned.keep fun k => !(k.org == orgId && k.id == nodeId)

/-- Gives a free reference to a node. -/
def give (refs : Refs) (orgId nodeId : UUID) (key : ReferenceKey) : Refs where
  forward := refs.forward.set ⟨orgId, key.templateName, key.encoded⟩ nodeId
  owned := refs.owned.set ⟨orgId, nodeId, key.templateName⟩ key.encoded

/-- Claims keys in order: a free reference is taken, one that the node holds is passed over, and one of
another node is a conflict. -/
def claimEach (orgId nodeId : UUID) : Refs → List ReferenceKey → Except Refusal Refs
  | refs, [] => .ok refs
  | refs, key :: rest =>
    match refs.forward.get ⟨orgId, key.templateName, key.encoded⟩ with
    | none => claimEach orgId nodeId (refs.give orgId nodeId key) rest
    | some ownerId =>
      if ownerId = nodeId then claimEach orgId nodeId refs rest
      else .error ⟨.conflict, "reference is held by another node"⟩

def writeReferenceKeys (refs : Refs) (orgId nodeId : UUID) (keys : List ReferenceKey) :
    Except Refusal Refs :=
  claimEach orgId nodeId (refs.clearReferenceKeys orgId nodeId) keys

/-- The node that holds a reference, or the nil ID. -/
def lookupReference (refs : Refs) (orgId : UUID) (templateName encoded : String) : UUID :=
  (refs.forward.get ⟨orgId, templateName, encoded⟩).getD UUID.nil

/-- The references that a node owns, by template. -/
def readOwnedReferences (refs : Refs) (orgId nodeId : UUID) : Table String String :=
  (refs.ownedBy orgId nodeId).foldl (fun owned p => owned.set p.1.template p.2) .empty

end Refs

def clearReferenceKeys (orgId nodeId : UUID) : Step Unit :=
  writeDb fun db => { db with refs := db.refs.clearReferenceKeys orgId nodeId }

def writeReferenceKeys (orgId nodeId : UUID) (keys : List ReferenceKey) : Step Unit := do
  let refs ← readDb fun db => db.refs.writeReferenceKeys orgId nodeId keys
  writeDb fun db => { db with refs := refs }

/-- Claims the keys of a node that holds none; an empty list reads nothing. -/
def claimReferenceKeys (orgId nodeId : UUID) (keys : List ReferenceKey) : Step Unit :=
  if keys = [] then pure () else writeReferenceKeys orgId nodeId keys

variable {s s' : Attempt} {orgId nodeId : UUID} {keys : List ReferenceKey}

theorem writeReferenceKeys_ok {u : Unit} : writeReferenceKeys orgId nodeId keys s = .ok u s' ↔
    ∃ refs, s.db.refs.writeReferenceKeys orgId nodeId keys = .ok refs ∧
      s' = { s with db := { s.db with refs := refs } } := by
  rw [writeReferenceKeys, Tx.bind_ok]
  constructor
  · rintro ⟨refs, t, hread, hwrite⟩
    obtain ⟨hrefs, rfl⟩ := readDb_ok.mp hread
    exact ⟨refs, hrefs, writeDb_ok.mp hwrite⟩
  · rintro ⟨refs, hrefs, rfl⟩
    exact ⟨refs, s, readDb_ok.mpr ⟨hrefs, rfl⟩, writeDb_ok.mpr rfl⟩

/-- A claim is a write, or nothing when there is nothing to claim. -/
theorem claimReferenceKeys_ok {u : Unit} (h : claimReferenceKeys orgId nodeId keys s = .ok u s') :
    keys = [] ∧ s' = s ∨ keys ≠ [] ∧ ∃ refs, s.db.refs.writeReferenceKeys orgId nodeId keys = .ok refs ∧
      s' = { s with db := { s.db with refs := refs } } := by
  rw [claimReferenceKeys] at h
  split_ifs at h with hkeys
  · exact .inl ⟨hkeys, (Tx.pure_ok.mp h).2.symm⟩
  · exact .inr ⟨hkeys, writeReferenceKeys_ok.mp h⟩

/-! ### The two families hold the same references -/

namespace Refs

variable {refs refs' : Refs}

/-- A reference is held by a node exactly when the node owns it. -/
def Bijective (refs : Refs) : Prop :=
  ∀ orgId templateName encoded nodeId,
    refs.forward.get ⟨orgId, templateName, encoded⟩ = some nodeId ↔
      refs.owned.get ⟨orgId, nodeId, templateName⟩ = some encoded

/-- No template stands in the list with two references. -/
def OneReferencePerTemplate (keys : List ReferenceKey) : Prop :=
  ∀ a ∈ keys, ∀ b ∈ keys, a.templateName = b.templateName → a.encoded = b.encoded

instance (keys : List ReferenceKey) : Decidable (OneReferencePerTemplate keys) :=
  inferInstanceAs (Decidable (∀ a ∈ keys, ∀ b ∈ keys, a.templateName = b.templateName →
    a.encoded = b.encoded))

theorem mem_ownedBy {k : OwnedKey} {encoded : String} : (k, encoded) ∈ refs.ownedBy orgId nodeId ↔
    refs.owned.get k = some encoded ∧ k.org = orgId ∧ k.id = nodeId := by
  rw [ownedBy, Table.mem_scan]
  simp

theorem owned_clearReferenceKeys (k : OwnedKey) :
    (refs.clearReferenceKeys orgId nodeId).owned.get k =
      if k.org = orgId ∧ k.id = nodeId then none else refs.owned.get k := by
  rw [clearReferenceKeys, Table.get_keep]
  by_cases h : k.org = orgId ∧ k.id = nodeId
  · simp [h]
  · rw [if_neg h, if_pos]
    simpa [imp_iff_not_or] using h

theorem forward_clearReferenceKeys (k : RefKey) :
    (refs.clearReferenceKeys orgId nodeId).forward.get k =
      if k.org = orgId ∧ refs.owned.get ⟨orgId, nodeId, k.template⟩ = some k.encoded then none
      else refs.forward.get k := by
  have hmem : k ∈ (refs.ownedBy orgId nodeId).map (fun p => (⟨orgId, p.1.template, p.2⟩ : RefKey)) ↔
      k.org = orgId ∧ refs.owned.get ⟨orgId, nodeId, k.template⟩ = some k.encoded := by
    rw [List.mem_map]
    constructor
    · rintro ⟨⟨⟨o, n, t⟩, e⟩, hp, rfl⟩
      obtain ⟨hget, rfl, rfl⟩ := mem_ownedBy.mp hp
      exact ⟨rfl, hget⟩
    · rintro ⟨rfl, hget⟩
      exact ⟨(⟨k.org, nodeId, k.template⟩, k.encoded), mem_ownedBy.mpr ⟨hget, rfl, rfl⟩, rfl⟩
  by_cases hk : k.org = orgId ∧ refs.owned.get ⟨orgId, nodeId, k.template⟩ = some k.encoded
  · rw [if_pos hk]
    exact Table.get_foldl_erase_of_mem _ (hmem.mpr hk)
  · rw [if_neg hk]
    exact Table.get_foldl_erase_of_notMem _ (mt hmem.mp hk)

/-- Clearing keeps the families equal. -/
theorem Bijective.clearReferenceKeys (h : refs.Bijective) (orgId nodeId : UUID) :
    (refs.clearReferenceKeys orgId nodeId).Bijective := by
  intro o t e n
  rw [forward_clearReferenceKeys, owned_clearReferenceKeys]
  by_cases hn : o = orgId ∧ n = nodeId
  · obtain ⟨rfl, rfl⟩ := hn
    by_cases hown : refs.owned.get ⟨o, n, t⟩ = some e
    · simp [hown]
    · simp [hown, h o t e n]
  · rw [if_neg hn]
    by_cases hown : o = orgId ∧ refs.owned.get ⟨orgId, nodeId, t⟩ = some e
    · -- the cleared reference is held by the cleared node and by no other
      obtain ⟨rfl, hown⟩ := hown
      have hheld := (h o t e nodeId).mpr hown
      have hother : refs.owned.get ⟨o, n, t⟩ ≠ some e := fun hget => by
        have := ((h o t e n).mpr hget).symm.trans hheld
        exact hn ⟨rfl, Option.some.inj this⟩
      simp [hown, hother]
    · rw [if_neg hown]
      exact h o t e n

/-- After the clearing the node holds nothing. -/
theorem Bijective.forward_clear_ne (h : refs.Bijective) (t e : String) :
    (refs.clearReferenceKeys orgId nodeId).forward.get ⟨orgId, t, e⟩ ≠ some nodeId := by
  rw [Ne, h.clearReferenceKeys orgId nodeId orgId t e nodeId, owned_clearReferenceKeys]
  simp

/-- What one key of a claim that succeeded did. -/
theorem claimEach_cons_ok {key : ReferenceKey} (h : claimEach orgId nodeId refs (key :: keys) = .ok refs') :
    refs.forward.get ⟨orgId, key.templateName, key.encoded⟩ = none ∧
      claimEach orgId nodeId (refs.give orgId nodeId key) keys = .ok refs' ∨
    refs.forward.get ⟨orgId, key.templateName, key.encoded⟩ = some nodeId ∧
      claimEach orgId nodeId refs keys = .ok refs' := by
  rw [claimEach] at h
  split at h
  case h_1 hget => exact .inl ⟨hget, h⟩
  case h_2 ownerId hget =>
    split_ifs at h with howner
    exact .inr ⟨howner ▸ hget, h⟩

/-- A claim adds the references of its list and changes no other. -/
theorem forward_claimEach (h : claimEach orgId nodeId refs keys = .ok refs') (k : RefKey) :
    refs'.forward.get k =
      if k.org = orgId ∧ ⟨k.template, k.encoded⟩ ∈ keys then some nodeId else refs.forward.get k := by
  induction keys generalizing refs with
  | nil =>
    cases h
    simp
  | cons key rest ih =>
    have hmem : (k.org = orgId ∧ (⟨k.template, k.encoded⟩ : ReferenceKey) ∈ key :: rest) ↔
        ((⟨orgId, key.templateName, key.encoded⟩ : RefKey) = k ∨
          (k.org = orgId ∧ ⟨k.template, k.encoded⟩ ∈ rest)) := by
      obtain ⟨o, t, e⟩ := k
      obtain ⟨template, encoded⟩ := key
      simp only [List.mem_cons, ReferenceKey.mk.injEq, RefKey.mk.injEq, eq_comm]
      tauto
    rw [if_congr hmem rfl rfl]
    obtain ⟨hget, h⟩ | ⟨hget, h⟩ := claimEach_cons_ok h
    · rw [ih h, give, Table.get_set]
      by_cases hk : (⟨orgId, key.templateName, key.encoded⟩ : RefKey) = k <;> simp [hk]
    · rw [ih h]
      by_cases hk : (⟨orgId, key.templateName, key.encoded⟩ : RefKey) = k
      · rw [if_pos (Or.inl hk : _ ∨ _), ← hk, hget, ite_self]
      · simp [hk]

/-- A claim changes no entry of another node. -/
theorem owned_claimEach_of_ne (h : claimEach orgId nodeId refs keys = .ok refs') {k : OwnedKey}
    (hk : ¬ (k.org = orgId ∧ k.id = nodeId)) : refs'.owned.get k = refs.owned.get k := by
  induction keys generalizing refs with
  | nil =>
    cases h
    rfl
  | cons key rest ih =>
    obtain ⟨-, h⟩ | ⟨-, h⟩ := claimEach_cons_ok h
    · rw [ih h, give, Table.get_set_ne]
      rintro rfl
      exact hk ⟨rfl, rfl⟩
    · exact ih h

/-- Giving a free reference keeps the families equal when the node holds no other one of the
template. -/
theorem Bijective.give {key : ReferenceKey} (hbij : refs.Bijective)
    (hfree : refs.forward.get ⟨orgId, key.templateName, key.encoded⟩ = none)
    (hheld : ∀ e, refs.forward.get ⟨orgId, key.templateName, e⟩ = some nodeId → key.encoded = e) :
    (refs.give orgId nodeId key).Bijective := by
  intro o t e n
  rw [Refs.give, Table.get_set, Table.get_set]
  by_cases hkey : (⟨orgId, key.templateName, key.encoded⟩ : RefKey) = ⟨o, t, e⟩
  · obtain ⟨rfl, rfl, rfl⟩ := RefKey.mk.inj hkey
    by_cases hn : nodeId = n
    · simp [hn]
    · have hother : refs.owned.get ⟨orgId, n, key.templateName⟩ ≠ some key.encoded := fun hown => by
        rw [(hbij _ _ _ _).mpr hown] at hfree
        cases hfree
      simp [hn, hother]
  · rw [if_neg hkey]
    by_cases hown : (⟨orgId, nodeId, key.templateName⟩ : OwnedKey) = ⟨o, n, t⟩
    · obtain ⟨rfl, rfl, rfl⟩ := OwnedKey.mk.inj hown
      rw [if_pos rfl]
      refine iff_of_false (fun hforward => hkey ?_) fun heq => hkey ?_
      · rw [hheld e hforward]
      · rw [Option.some.inj heq]
    · rw [if_neg hown]
      exact hbij o t e n

theorem Bijective.claimEach (hbij : refs.Bijective) (hone : OneReferencePerTemplate keys)
    (hheld : ∀ t e, refs.forward.get ⟨orgId, t, e⟩ = some nodeId →
      ∀ key ∈ keys, key.templateName = t → key.encoded = e)
    (h : claimEach orgId nodeId refs keys = .ok refs') : refs'.Bijective := by
  -- the references that the node holds so far agree with what is left of the list
  induction keys generalizing refs with
  | nil =>
    cases h
    exact hbij
  | cons key rest ih =>
    have honeRest : OneReferencePerTemplate rest := fun a ha b hb =>
      hone a (List.mem_cons_of_mem _ ha) b (List.mem_cons_of_mem _ hb)
    obtain ⟨hfree, h⟩ | ⟨-, h⟩ := claimEach_cons_ok h
    · refine ih (hbij.give hfree fun e he => hheld _ e he key List.mem_cons_self rfl) honeRest ?_ h
      intro t e hforward other hother htemplate
      rw [Refs.give, Table.get_set] at hforward
      by_cases hkey : (⟨orgId, key.templateName, key.encoded⟩ : RefKey) = ⟨orgId, t, e⟩
      · obtain ⟨-, rfl, rfl⟩ := RefKey.mk.inj hkey
        exact hone other (List.mem_cons_of_mem _ hother) key List.mem_cons_self htemplate
      · rw [if_neg hkey] at hforward
        exact hheld t e hforward other (List.mem_cons_of_mem _ hother) htemplate
    · exact ih hbij honeRest (fun t e hforward other hother =>
        hheld t e hforward other (List.mem_cons_of_mem _ hother)) h

/-- **A write keeps the families equal exactly when its list names no template with two references.** -/
theorem writeReferenceKeys_bijective_iff (hbij : refs.Bijective)
    (h : refs.writeReferenceKeys orgId nodeId keys = .ok refs') :
    refs'.Bijective ↔ OneReferencePerTemplate keys := by
  constructor
  · -- both references of a template would be what the node owns for it
    intro hbij' a ha b hb htemplate
    have hheld : ∀ key ∈ keys, refs'.owned.get ⟨orgId, nodeId, key.templateName⟩ = some key.encoded := by
      intro key hkey
      refine (hbij' _ _ _ _).mp ?_
      rw [forward_claimEach h, if_pos ⟨rfl, hkey⟩]
    have hab := hheld a ha
    rw [htemplate, hheld b hb] at hab
    exact (Option.some.inj hab).symm
  · intro hone
    exact (hbij.clearReferenceKeys orgId nodeId).claimEach hone
      (fun t e hforward => absurd hforward (hbij.forward_clear_ne t e)) h

/-- A reference that was claimed is looked up as its claimant's. -/
theorem lookupReference_of_write (h : refs.writeReferenceKeys orgId nodeId keys = .ok refs')
    {key : ReferenceKey} (hkey : key ∈ keys) :
    refs'.lookupReference orgId key.templateName key.encoded = nodeId := by
  rw [lookupReference, forward_claimEach h, if_pos ⟨rfl, hkey⟩]
  rfl

end Refs

end Tack.Nodes
