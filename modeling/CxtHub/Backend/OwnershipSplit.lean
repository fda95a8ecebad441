/-
# How the ownership migration splits containers

Each turn of the two loops places one repository: a container without content, or one
content repository of a container (`Placement`).  `Placed` is what holds of the tables for
the placements so far.  Ids are new because a placement has either the id of its own
container or an id that is not in the table; two placements never share an owner and a
slug because each adds an alias for its address.

`placeContainers_placed` is what the loops give: one placement per content repository of
each container, or one for a container without content.
-/

import CxtHub.Backend.OwnershipAliases

namespace CxtHub
namespace Backend

/-- A repository placed by the plan: the boundary it comes from, its content, its record. -/
structure Placement where
  container : Repository
  content : Option ContentRepo
  next : Repository

/-- The content repository as the plan writes it. -/
def Placement.moved (p : Placement) : Option ContentRepo :=
  p.content.map fun r => { r with repositoryID := p.next.id }

/-- The tables after some placements. -/
structure Placed (env : OwnershipEnv) (containers : List Repository) (placed : List Placement)
    (s : PlanState) : Prop where
  repositories : s.repositories = placed.map Placement.next
  repos : s.repos = placed.filterMap Placement.moved
  nodup : (placed.map fun p => p.next.id).Nodup
  keeps : ∀ p ∈ placed, p.next =
    { p.container with id := p.next.id, slug := p.next.slug, name := p.next.name }
  own : ∀ p ∈ placed, p.next.id = p.container.id ∨ p.next.id ∉ containers.map Repository.id
  known : ∀ p ∈ placed, (s.byID.get p.next.id).isSome
  containers_known : ∀ w ∈ containers, (s.byID.get w.id).isSome
  targets : ∀ id, (s.targets.get id).getD [] =
    (placed.filter fun p => p.container.id = id).map fun p => p.next.id
  aliased : Aliased s
  aliases : ∀ a ∈ s.aliases, ∃ p ∈ placed, a.repositoryID = p.next.id
  named : ∀ p ∈ placed,
    s.aliasTargets.get (ownerKey p.container ++ "/" ++ p.next.slug) = some p.next.id
  connected : ∀ p ∈ placed, ∀ r, p.content = some r →
    s.aliasTargets.get ("handle:" ++ legacyOwner env r ++ "/" ++ legacyPath env r) =
      some p.next.id

variable {env : OwnershipEnv} {containers : List Repository} {placed : List Placement}
  {s s' : PlanState}

/-- The targets of a container after one more placement in it. -/
theorem targets_append {t t' : Dir String (List String)} {p : Placement}
    (h : ∀ id, (t.get id).getD [] =
      (placed.filter fun p => p.container.id = id).map fun p => p.next.id)
    (ht : t' = t.set p.container.id ((t.get p.container.id).getD [] ++ [p.next.id])) (id : String) :
    (t'.get id).getD [] =
      ((placed ++ [p]).filter fun p => p.container.id = id).map fun p => p.next.id := by
  subst ht
  by_cases hid : id = p.container.id
  · subst hid
    rw [Dir.get_set_self, Option.getD_some, h]
    simp
  · rw [Dir.get_set_of_ne _ _ hid, h]
    simp [Ne.symm hid]

/-- Aliases are added for a placement that the other tables already have. -/
theorem Placed.of_aliasStep (p : Placement) (s₀ : PlanState) {s₁ : PlanState}
    (h : Placed env containers placed s)
    (hrepositories : s₀.repositories = s.repositories ++ [p.next])
    (hrepos : s₀.repos = s.repos ++ p.moved.toList)
    (hnew : p.next.id ∉ placed.map fun p => p.next.id)
    (hkeeps : p.next =
      { p.container with id := p.next.id, slug := p.next.slug, name := p.next.name })
    (hown : p.next.id = p.container.id ∨ p.next.id ∉ containers.map Repository.id)
    (hbyID : ∀ id, (s.byID.get id).isSome → (s₀.byID.get id).isSome)
    (hknown : (s₀.byID.get p.next.id).isSome)
    (htargets : s₀.targets = s.targets.set p.container.id
      ((s.targets.get p.container.id).getD [] ++ [p.next.id]))
    (haliases : s₀.aliases = s.aliases) (haliasTargets : s₀.aliasTargets = s.aliasTargets)
    (hstep : AliasStep p.next.id s₀ s₁)
    (hnamed : s₁.aliasTargets.get (ownerKey p.container ++ "/" ++ p.next.slug) = some p.next.id)
    (hconnected : ∀ r, p.content = some r →
      s₁.aliasTargets.get ("handle:" ++ legacyOwner env r ++ "/" ++ legacyPath env r) =
        some p.next.id) :
    Placed env containers (placed ++ [p]) s₁ := by
  have haliased : Aliased s₀ := ⟨haliases ▸ h.aliased.nodup, fun k id => by
    rw [haliasTargets, haliases]
    exact h.aliased.get_iff k id⟩
  have hkept : ∀ k v, s.aliasTargets.get k = some v → s₁.aliasTargets.get k = some v :=
    fun k v hk => hstep.kept k v (haliasTargets ▸ hk)
  have hmem : ∀ {q : Placement}, q ∈ placed ++ [p] → q ∈ placed ∨ q = p := fun hq =>
    (List.mem_append.1 hq).imp_right List.mem_singleton.1
  refine ⟨?_, ?_, ?_, ?_, ?_, ?_, ?_, ?_, hstep.aliased haliased, ?_, ?_, ?_⟩
  · rw [hstep.repositories, hrepositories, h.repositories, List.map_append]
    rfl
  · rw [hstep.repos, hrepos, h.repos, List.filterMap_append]
    cases hp : p.moved <;> simp [hp]
  · rw [List.map_append, List.map_singleton, List.nodup_append]
    refine ⟨h.nodup, List.nodup_singleton _, fun a ha b hb hab => ?_⟩
    rw [List.mem_singleton] at hb
    exact hnew (hb ▸ hab ▸ ha)
  · intro q hq
    rcases hmem hq with hq | rfl
    · exact h.keeps q hq
    · exact hkeeps
  · intro q hq
    rcases hmem hq with hq | rfl
    · exact h.own q hq
    · exact hown
  · intro q hq
    rw [hstep.byID]
    rcases hmem hq with hq | rfl
    · exact hbyID _ (h.known q hq)
    · exact hknown
  · intro w hw
    rw [hstep.byID]
    exact hbyID _ (h.containers_known w hw)
  · rw [hstep.targets]
    exact targets_append h.targets htargets
  · intro a ha
    rcases hstep.added a ha with ha | ha
    · obtain ⟨q, hq, hid⟩ := h.aliases a (haliases ▸ ha)
      exact ⟨q, List.mem_append_left _ hq, hid⟩
    · exact ⟨p, List.mem_append_right _ (List.mem_singleton_self p), ha⟩
  · intro q hq
    rcases hmem hq with hq | rfl
    · exact hkept _ _ (h.named q hq)
    · exact hnamed
  · intro q hq r hr
    rcases hmem hq with hq | rfl
    · exact hkept _ _ (h.connected q hq r hr)
    · exact hconnected r hr

/-- A turn of the inner loop places one content repository. -/
theorem placeChild_placed {w : Repository} {count i : ℕ} {r : ContentRepo}
    (h : Placed env containers placed s) (hw : w ∈ containers)
    (hfirst : i = 0 → ∀ p ∈ placed, p.container.id ≠ w.id)
    (hplace : placeChild env w count i s r = .ok s') :
    ∃ next, Placed env containers (placed ++ [⟨w, some r, next⟩]) s' := by
  simp only [placeChild, bind_eq_ok, refuse_eq_ok, exists_unit_iff] at hplace
  obtain ⟨-, hcollision, -, halias⟩ := hplace
  obtain ⟨hstep, hnamed, hconnected⟩ := aliasChild_spec halias
  have hwid : w.id ∈ containers.map Repository.id := List.mem_map_of_mem hw
  have hfresh : childID env w i r ∉ placed.map (fun p => p.next.id) ∧
      (childID env w i r = w.id ∨ childID env w i r ∉ containers.map Repository.id) := by
    by_cases hi : i = 0
    · have hid : childID env w i r = w.id := if_pos hi
      rw [hid]
      refine ⟨fun hmem => ?_, .inl rfl⟩
      obtain ⟨p, hp, hpid⟩ := List.mem_map.1 hmem
      rcases h.own p hp with hown | hown
      · exact hfirst hi p hp (hown.symm.trans hpid)
      · exact hown (hpid ▸ hwid)
    · have hnone : (s.byID.get (childID env w i r)).isSome = false := by
        rw [Bool.eq_false_iff]
        exact fun hsome => hcollision ⟨Nat.pos_of_ne_zero hi, hsome⟩
      have hunknown : ∀ id, (s.byID.get id).isSome → childID env w i r ≠ id := fun id hid heq => by
        rw [heq, hid] at hnone
        cases hnone
      refine ⟨fun hmem => ?_, .inr fun hmem => ?_⟩
      · obtain ⟨p, hp, hpid⟩ := List.mem_map.1 hmem
        exact hunknown _ (h.known p hp) hpid.symm
      · obtain ⟨v, hv, hvid⟩ := List.mem_map.1 hmem
        exact hunknown _ (h.containers_known v hv) hvid.symm
  have hbyID : ∀ id, (s.byID.get id).isSome →
      ((s.byID.set (childID env w i r) { w with id := childID env w i r }).get id).isSome := by
    intro id hid
    by_cases heq : id = childID env w i r
    · rw [heq, Dir.get_set_self]
      rfl
    · rwa [Dir.get_set_of_ne _ _ heq]
  obtain ⟨candidate, hcandidate⟩ : ∃ candidate,
      candidate = candidateName s w (legacyPath env r) count r := ⟨_, rfl⟩
  rw [← hcandidate] at hstep hnamed
  refine ⟨{ w with id := childID env w i r, slug := candidate
                   name := if candidate ≠ w.slug then candidate else w.name },
    h.of_aliasStep _ (recordChild w r (childID env w i r) candidate s) rfl rfl hfresh.1 rfl
      hfresh.2 hbyID ?_ rfl rfl rfl hstep hnamed fun r' hr' => ?_⟩
  · exact Option.isSome_iff_exists.2 ⟨_, Dir.get_set_self _ _ _⟩
  · cases hr'
    exact hconnected

/-- The inner loop places every content repository of the container. -/
theorem placeChildren_placed {w : Repository} {count i : ℕ} {list : List ContentRepo}
    (h : Placed env containers placed s) (hw : w ∈ containers)
    (hfirst : i = 0 → ∀ p ∈ placed, p.container.id ≠ w.id)
    (hplace : placeChildren env w count i s list = .ok s') :
    ∃ ps : List Placement, Placed env containers (placed ++ ps) s' ∧
      (∀ p ∈ ps, p.container = w) ∧ ps.map Placement.content = list.map some := by
  induction list generalizing i s placed with
  | nil =>
      cases hplace
      exact ⟨[], by rwa [List.append_nil], nofun, rfl⟩
  | cons r list ih =>
      simp only [placeChildren, bind_eq_ok] at hplace
      obtain ⟨s₁, hr, hrest⟩ := hplace
      obtain ⟨next, hnext⟩ := placeChild_placed h hw hfirst hr
      obtain ⟨ps, hps, hcontainer, hcontent⟩ := ih hnext (fun hi => absurd hi (Nat.succ_ne_zero i))
        hrest
      refine ⟨⟨w, some r, next⟩ :: ps, by rwa [List.append_cons], ?_, ?_⟩
      · exact List.forall_mem_cons.2 ⟨rfl, hcontainer⟩
      · rw [List.map_cons, hcontent, List.map_cons]

/-- The placements of a container: one for each content repository, or one without content. -/
structure Split (env : OwnershipEnv) (repos : List ContentRepo) (w : Repository)
    (ps : List Placement) : Prop where
  container : ∀ p ∈ ps, p.container = w
  content : ps.map Placement.content =
    if childrenOf env repos w = [] then [none] else (childrenOf env repos w).map some
  empty : childrenOf env repos w = [] → ps.map Placement.next = [w]

/-- A turn of the outer loop splits one container. -/
theorem placeContainer_placed {repos : List ContentRepo} {w : Repository}
    (h : Placed env containers placed s) (hw : w ∈ containers)
    (hfirst : ∀ p ∈ placed, p.container.id ≠ w.id)
    (hplace : placeContainer env repos s w = .ok s') :
    ∃ ps, Placed env containers (placed ++ ps) s' ∧ Split env repos w ps := by
  rw [placeContainer] at hplace
  split_ifs at hplace with hempty
  · have hnew : w.id ∉ placed.map fun p => p.next.id := fun hmem => by
      obtain ⟨p, hp, hpid⟩ := List.mem_map.1 hmem
      rcases h.own p hp with hown | hown
      · exact hfirst p hp (hown.symm.trans hpid)
      · exact hown (hpid ▸ List.mem_map_of_mem hw)
    have hnone : (s.targets.get w.id).getD [] = [] := by
      rw [h.targets, List.map_eq_nil_iff, List.filter_eq_nil_iff]
      exact fun p hp => by simpa using hfirst p hp
    refine ⟨[⟨w, none, w⟩], h.of_aliasStep ⟨w, none, w⟩
      { s with repositories := s.repositories ++ [w], targets := s.targets.set w.id [w.id] } rfl
      (List.append_nil _).symm hnew rfl (.inl rfl) (fun _ hid => hid) (h.containers_known w hw)
      ?_ rfl rfl (addAlias_spec hplace).1 (aliasTargets_of_addAlias hplace).1
      (fun r hr => by cases hr), ?_, ?_, fun _ => rfl⟩
    · rw [hnone]
      rfl
    · exact fun p hp => by rw [List.mem_singleton.1 hp]
    · rw [if_pos hempty]
      rfl
  · obtain ⟨ps, hps, hcontainer, hcontent⟩ :=
      placeChildren_placed h hw (fun _ => hfirst) hplace
    exact ⟨ps, hps, hcontainer, by rw [if_neg hempty, hcontent], fun he => absurd he hempty⟩

/-- The outer loop splits every container. -/
theorem placeContainers_placed {repos : List ContentRepo}
    (hids : (containers.map Repository.id).Nodup) (h : Placed env containers [] s)
    (hplace : containers.foldlM (placeContainer env repos) s = .ok s') :
    ∃ groups : List (Repository × List Placement), groups.map Prod.fst = containers ∧
      (∀ g ∈ groups, Split env repos g.1 g.2) ∧
      Placed env containers (groups.flatMap Prod.snd) s' := by
  refine foldlM_invariant_split (P := fun done s => ∃ groups : List (Repository × List Placement),
    groups.map Prod.fst = done ∧ (∀ g ∈ groups, Split env repos g.1 g.2) ∧
      Placed env containers (groups.flatMap Prod.snd) s) ?_ ⟨[], rfl, nofun, h⟩ hplace
  rintro done w rest s₁ s₂ hsplit ⟨groups, rfl, hgroups, hplanned⟩ hw
  have hnew : w.id ∉ (groups.map Prod.fst).map Repository.id := by
    rw [hsplit, List.map_append, List.map_cons, List.nodup_append] at hids
    exact fun hmem => hids.2.2 _ hmem _ List.mem_cons_self rfl
  have hfirst : ∀ p ∈ groups.flatMap Prod.snd, p.container.id ≠ w.id := by
    intro p hp heq
    obtain ⟨g, hg, hp⟩ := List.mem_flatMap.1 hp
    rw [(hgroups g hg).container p hp] at heq
    exact hnew (heq ▸ List.mem_map_of_mem (List.mem_map_of_mem hg))
  obtain ⟨ps, hps, hsplit'⟩ := placeContainer_placed hplanned (by rw [hsplit]; simp) hfirst hw
  refine ⟨groups ++ [(w, ps)], by simp, ?_, by simpa using hps⟩
  intro g hg
  rcases List.mem_append.1 hg with hg | hg
  · exact hgroups g hg
  · rw [List.mem_singleton] at hg
    rwa [hg]

end Backend
end CxtHub
