/-
# The alias table of the ownership migration

`addAlias` only adds: what a key resolves to never changes, each key has one alias, and
the new aliases name the repository they are added for (`Aliased`, `addAlias_spec`).  The
other tables are left as they are.
-/

import CxtHub.Backend.Ownership

namespace CxtHub
namespace Backend

variable {id : String} {s s' : PlanState}

/-- The table and the list of aliases agree: each key has one alias. -/
structure Aliased (s : PlanState) : Prop where
  nodup : (s.aliases.map RepositoryPathAlias.key).Nodup
  get_iff : ∀ k id, s.aliasTargets.get k = some id ↔
    ∃ a ∈ s.aliases, a.key = k ∧ a.repositoryID = id

/-- What adding aliases for a repository does. -/
structure AliasStep (id : String) (s s' : PlanState) : Prop where
  byID : s'.byID = s.byID
  reserved : s'.reserved = s.reserved
  repositories : s'.repositories = s.repositories
  repos : s'.repos = s.repos
  targets : s'.targets = s.targets
  kept : ∀ k v, s.aliasTargets.get k = some v → s'.aliasTargets.get k = some v
  added : ∀ a ∈ s'.aliases, a ∈ s.aliases ∨ a.repositoryID = id
  aliased : Aliased s → Aliased s'

theorem AliasStep.refl (id : String) (s : PlanState) : AliasStep id s s where
  byID := rfl
  reserved := rfl
  repositories := rfl
  repos := rfl
  targets := rfl
  kept _ _ h := h
  added _ h := .inl h
  aliased h := h

/-- Two steps in a row. -/
theorem AliasStep.trans {s'' : PlanState} (h : AliasStep id s s')
    (h' : AliasStep id s' s'') : AliasStep id s s'' where
  byID := h'.byID.trans h.byID
  reserved := h'.reserved.trans h.reserved
  repositories := h'.repositories.trans h.repositories
  repos := h'.repos.trans h.repos
  targets := h'.targets.trans h.targets
  kept k v hk := h'.kept k v (h.kept k v hk)
  added a ha := (h'.added a ha).elim (h.added a) .inr
  aliased hs := h'.aliased (h.aliased hs)

/-- An alias is recorded, unless its path leads elsewhere. -/
theorem putAlias_spec {a : RepositoryPathAlias} (h : putAlias s a = .ok s') :
    AliasStep a.repositoryID s s' ∧ s'.aliasTargets.get a.key = some a.repositoryID := by
  rw [putAlias] at h
  split at h
  · rename_i target hget
    split_ifs at h with htarget
    · cases h
      rw [ne_eq, not_not] at htarget
      exact ⟨AliasStep.refl _ _, htarget ▸ hget⟩
  · rename_i hget
    cases h
    have hnew : ∀ k v, s.aliasTargets.get k = some v → k ≠ a.key := fun k v hk heq => by
      rw [heq, hget] at hk
      cases hk
    refine ⟨{ byID := rfl, reserved := rfl, repositories := rfl, repos := rfl, targets := rfl
              kept := fun k v hk => ?_
              added := fun b hb => ?_
              aliased := fun hs => ⟨?_, fun k id => ?_⟩ }, Dir.get_set_self _ _ _⟩
    · exact (Dir.get_set_of_ne _ _ (hnew k v hk)).trans hk
    · rcases List.mem_append.1 hb with hb | hb
      · exact .inl hb
      · rw [List.mem_singleton] at hb
        exact .inr (by rw [hb])
    · -- the key is new in the table, hence in the list
      rw [List.map_append, List.nodup_append]
      refine ⟨hs.nodup, List.nodup_singleton _, fun k hk k' hk' heq => ?_⟩
      obtain ⟨b, hb, rfl⟩ := List.mem_map.1 hk
      rw [List.map_singleton, List.mem_singleton] at hk'
      exact hnew b.key b.repositoryID ((hs.get_iff _ _).2 ⟨b, hb, rfl, rfl⟩) (heq.trans hk')
    · by_cases hk : k = a.key
      · subst hk
        simp only [Dir.get_set_self, Option.some.injEq, List.mem_append, List.mem_singleton]
        constructor
        · rintro rfl
          exact ⟨a, .inr rfl, rfl, rfl⟩
        · rintro ⟨b, hb | rfl, hkey, rfl⟩
          · exact absurd hkey (hnew _ _ ((hs.get_iff _ _).2 ⟨b, hb, rfl, rfl⟩))
          · rfl
      · rw [Dir.get_set_of_ne _ _ hk, hs.get_iff]
        simp only [List.mem_append, List.mem_singleton]
        constructor
        · rintro ⟨b, hb, hrest⟩
          exact ⟨b, .inl hb, hrest⟩
        · rintro ⟨b, hb | rfl, hkey, hid⟩
          · exact ⟨b, hb, hkey, hid⟩
          · exact absurd hkey.symm hk

/-- **Adding aliases.**  Every alias of the list resolves to the repository. -/
theorem addAlias_spec {namespaceID owner path : String}
    {content : ContentHash} (h : addAlias s namespaceID owner path id content = .ok s') :
    AliasStep id s s' ∧
      ∀ a ∈ aliasesFor namespaceID owner path id content, s'.aliasTargets.get a.key = some id := by
  have hid : ∀ a ∈ aliasesFor namespaceID owner path id content, a.repositoryID = id := by
    intro a ha
    rw [aliasesFor] at ha
    split_ifs at ha <;> simp at ha
    · rcases ha with rfl | rfl <;> rfl
    · rw [ha]
  refine foldlM_invariant_split (P := fun done s' => AliasStep id s s' ∧
    ∀ a ∈ done, s'.aliasTargets.get a.key = some id) ?_ ⟨AliasStep.refl _ _, nofun⟩ h
  rintro done a rest s₁ s₂ hsplit ⟨hstep, hdone⟩ hput
  obtain ⟨hput, hget⟩ := putAlias_spec hput
  have ha : a.repositoryID = id := hid a (hsplit ▸ by simp)
  rw [ha] at hput hget
  refine ⟨hstep.trans hput, fun b hb => ?_⟩
  rcases List.mem_append.1 hb with hb | hb
  · exact hput.kept _ _ (hdone b hb)
  · rw [List.mem_singleton] at hb
    rwa [hb]

/-- The address under the owner and the one under the handle both resolve. -/
theorem aliasTargets_of_addAlias {namespaceID owner path : String}
    {content : ContentHash} (h : addAlias s namespaceID owner path id content = .ok s') :
    s'.aliasTargets.get ((if namespaceID ≠ "" then namespaceID else "handle:" ++ owner) ++ "/" ++
        path) = some id ∧
      s'.aliasTargets.get ("handle:" ++ owner ++ "/" ++ path) = some id := by
  obtain ⟨-, hall⟩ := addAlias_spec h
  by_cases hns : namespaceID = ""
  · have hkey := hall _ List.mem_cons_self
    simp only [RepositoryPathAlias.key, hns, if_true] at hkey
    simp only [hns, ne_eq, not_true_eq_false, if_false]
    exact ⟨hkey, hkey⟩
  · have hfirst := hall _ List.mem_cons_self
    have hsecond := hall { owner, path, repositoryID := id, contextRepoID := content } (by
      rw [aliasesFor, if_pos hns]
      simp)
    simp only [RepositoryPathAlias.key, hns, if_true, if_false] at hfirst hsecond
    simp only [ne_eq, hns, not_false_eq_true, if_true]
    exact ⟨hfirst, hsecond⟩

/-- The aliases of a content repository: its address and its connection resolve. -/
theorem aliasChild_spec {env : OwnershipEnv} {w : Repository} {count : ℕ} {r : ContentRepo}
    {candidate : String} (h : aliasChild env w count r id candidate s = .ok s') :
    AliasStep id s s' ∧
      s'.aliasTargets.get (ownerKey w ++ "/" ++ candidate) = some id ∧
      s'.aliasTargets.get ("handle:" ++ legacyOwner env r ++ "/" ++ legacyPath env r) =
        some id := by
  simp only [aliasChild, bind_eq_ok] at h
  obtain ⟨s₁, hpath, s₂, hold, s₃, hname, hlast⟩ := h
  have hlast' : AliasStep id s₃ s' := by
    split_ifs at hlast
    · exact (addAlias_spec hlast).1
    · cases hlast
      exact AliasStep.refl _ _
  have hnames := (addAlias_spec hname).1.trans hlast'
  have hconnected : AliasStep id s₁ s₂ ∧
      s₂.aliasTargets.get ("handle:" ++ legacyOwner env r ++ "/" ++ legacyPath env r) =
        some id := by
    rw [addOldOwner] at hold
    split_ifs at hold with howner
    · exact ⟨(addAlias_spec hold).1, (aliasTargets_of_addAlias hold).2⟩
    · cases hold
      rw [ne_eq, not_not] at howner
      exact ⟨AliasStep.refl _ _, howner ▸ (aliasTargets_of_addAlias hpath).2⟩
  exact ⟨(addAlias_spec hpath).1.trans (hconnected.1.trans hnames),
    hlast'.kept _ _ (aliasTargets_of_addAlias hname).1, hnames.kept _ _ hconnected.2⟩

end Backend
end CxtHub
