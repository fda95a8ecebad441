/-
# What a ref read sees

`GetRef` of a branch under the legacy protocol lists every ref of the repository
and reads the branch through the lifecycle projection.  The lifecycle events come
from tags alone (`branchLifecycleStates_append`), so `Repo.getRef_branch` says when
a branch is read: its file is valid, every ref is readable, and no archive event
hides its target.
-/

import CxtHub.Backend.Store

namespace CxtHub
namespace Backend

variable {refs : List Ref} {ref : Ref} {kind : RefKind}

/-- Refs that are no tags carry no lifecycle event. -/
theorem branchLifecycleStates_append {tags : List Ref}
    (h : ∀ ref ∈ refs, ref.kind ≠ .tag) :
    branchLifecycleStates (refs ++ tags) = branchLifecycleStates tags := by
  unfold branchLifecycleStates
  induction refs with
  | nil => rfl
  | cons ref refs ih =>
      have hnone : parseBranchLifecycleRef ref = .ok none :=
        if_pos (h ref (List.mem_cons_self ..))
      rw [List.cons_append, branchLifecycleStatesFrom, hnone, ok_bind]
      exact ih fun x hx => h x (List.mem_cons_of_mem _ hx)

/-- A read ref has the kind and name it was asked for. -/
theorem Repo.branchRef_eq_ok {r : Repo} {name : String} {file : BranchFile}
    (h : r.branchRef name file = .ok ref) :
    ref.kind = .branch ∧ ref.name = name ∧ ref.repoID = r.id ∧ validateRef ref = .ok () := by
  cases file with
  | target t =>
      simp only [Repo.branchRef, Repo.plainRef, bind_eq_ok, exists_unit_iff,
        Except.ok.injEq] at h
      obtain ⟨hv, rfl⟩ := h
      exact ⟨rfl, rfl, rfl, hv⟩
  | record rec =>
      simp only [Repo.branchRef, bind_eq_ok, exists_unit_iff, refuse_eq_ok, not_or, not_not,
        ne_eq, Except.ok.injEq] at h
      obtain ⟨⟨hrepo, hkind, hname⟩, hv, rfl⟩ := h
      exact ⟨hkind, hname, hrepo, hv⟩

/-- Reading a branch from its file. -/
theorem Repo.getRefRaw_branch {r : Repo} {name : String} :
    r.getRefRaw .branch name = .ok ref ↔ validContentHash r.id = true ∧
      validBranchName name = true ∧
      ∃ file, r.heads.get name = some file ∧ r.branchRef name file = .ok ref := by
  simp only [Repo.getRefRaw, validateRefName, bind_eq_ok, exists_unit_iff,
    validateContentHash_eq_ok, validateBranchName_eq_ok]
  cases r.heads.get name <;> simp [orNotFound]

/-- Reading a session from its file. -/
theorem Repo.getRefRaw_session {r : Repo} {name : String} :
    r.getRefRaw .session name = .ok ref ↔ validContentHash r.id = true ∧
      validBranchName name = true ∧
      ∃ t, r.sessions.get name = some t ∧ r.plainRef .session name t = .ok ref := by
  simp only [Repo.getRefRaw, validateRefName, bind_eq_ok, exists_unit_iff,
    validateContentHash_eq_ok, validateBranchName_eq_ok]
  cases r.sessions.get name <;> simp [orNotFound]

/-- A plain ref has its kind, name and target. -/
theorem Repo.plainRef_eq_ok {r : Repo} {name : String} {t : ContentHash}
    (h : r.plainRef kind name t = .ok ref) :
    ref.kind = kind ∧ ref.name = name ∧ ref.target = t ∧ validateRef ref = .ok () := by
  simp only [Repo.plainRef, bind_eq_ok, exists_unit_iff, Except.ok.injEq] at h
  obtain ⟨hv, rfl⟩ := h
  exact ⟨rfl, rfl, rfl, hv⟩

/-- A read of any kind returns a ref of that kind and name. -/
theorem Repo.getRefRaw_kind {r : Repo} {name : String}
    (h : r.getRefRaw kind name = .ok ref) :
    ref.kind = kind ∧ (kind ≠ .head → ref.name = name) := by
  have hread : ∀ {α : Type} {file : Option α} {f : α → Except DomainError Ref},
      orNotFound file f = .ok ref → ∃ content, f content = .ok ref := by
    intro α file f hf
    cases file with
    | none => cases hf
    | some content => exact ⟨content, hf⟩
  simp only [Repo.getRefRaw, bind_eq_ok, exists_unit_iff] at h
  obtain ⟨-, -, h⟩ := h
  cases kind with
  | head =>
      obtain ⟨content, hc⟩ := hread h
      refine ⟨?_, fun hne => absurd rfl hne⟩
      unfold Repo.headRef at hc
      split_ifs at hc
      · simp only [bind_eq_ok, exists_unit_iff, Except.ok.injEq] at hc
        exact hc.2 ▸ rfl
      · exact (Repo.plainRef_eq_ok hc).1
  | branch =>
      obtain ⟨content, hc⟩ := hread h
      exact ⟨(Repo.branchRef_eq_ok hc).1, fun _ => (Repo.branchRef_eq_ok hc).2.1⟩
  | session =>
      obtain ⟨content, hc⟩ := hread h
      exact ⟨(Repo.plainRef_eq_ok hc).1, fun _ => (Repo.plainRef_eq_ok hc).2.1⟩
  | tag =>
      obtain ⟨content, hc⟩ := hread h
      exact ⟨(Repo.plainRef_eq_ok hc).1, fun _ => (Repo.plainRef_eq_ok hc).2.1⟩

/-- The ref of a session file. -/
def Repo.sessionRef (r : Repo) (name : String) (t : ContentHash) : Ref :=
  { kind := .session, name := name, repoID := r.id, target := t }

section Session

variable {r : Repo} {name : String}

theorem Repo.getRef_session_none (hr : validContentHash r.id = true)
    (hn : validBranchName name = true) (h : r.sessions.get name = none) :
    r.getRef .session name = .error notFound := by
  have hv : validateContentHash r.id = .ok () := validateContentHash_eq_ok.2 hr
  have hvn : validateBranchName name = .ok () := validateBranchName_eq_ok.2 hn
  have hraw : r.getRefRaw .session name = .error notFound := by
    simp only [Repo.getRefRaw, validateRefName, hv, hvn, ok_bind, h, orNotFound]
  rw [Repo.getRef, hraw, error_bind]

/-- A session that is there is read. -/
theorem Repo.getRef_session_some (hr : validContentHash r.id = true)
    (hn : validBranchName name = true) {t : ContentHash} (h : r.sessions.get name = some t)
    (ht : validContentHash t = true) : r.getRef .session name = .ok (r.sessionRef name t) := by
  have hvalid : validateRef (r.sessionRef name t) = .ok () := by
    refine (validateRef_eq_ok (by change RefKind.session ≠ .head; decide)).2 ⟨?_, hr, ?_, ht⟩
    · change ¬ badBranchID ""
      unfold badBranchID
      decide
    · exact validateBranchName_eq_ok.2 hn
  have hplain : r.plainRef .session name t = .ok (r.sessionRef name t) := by
    change (validateRef (r.sessionRef name t) >>= fun _ => .ok (r.sessionRef name t)) = _
    rw [hvalid, ok_bind]
  have hraw := Repo.getRefRaw_session.2 ⟨hr, hn, t, h, hplain⟩
  rw [Repo.getRef, hraw, ok_bind, if_pos ⟨by decide, by decide⟩]

end Session

/-- The four parts of a listing. -/
theorem Repo.listRefsRaw_eq_ok {r : Repo} :
    r.listRefsRaw = .ok refs ↔ validContentHash r.id = true ∧ ∃ head heads sessions tags,
      r.listHead = .ok head ∧ readAll (r.getRefRaw .branch) r.heads.keys = .ok heads ∧
      readAll (r.getRefRaw .session) r.sessions.keys = .ok sessions ∧
      readAll (r.getRefRaw .tag) r.tags.keys = .ok tags ∧
      head ++ heads ++ sessions ++ tags = refs := by
  simp only [Repo.listRefsRaw, bind_eq_ok, exists_unit_iff, validateContentHash_eq_ok,
    Except.ok.injEq]
  constructor
  · rintro ⟨hid, head, hhead, heads, hheads, sessions, hsessions, tags, htags, heq⟩
    exact ⟨hid, head, heads, sessions, tags, hhead, hheads, hsessions, htags, heq⟩
  · rintro ⟨hid, head, heads, sessions, tags, hhead, hheads, hsessions, htags, heq⟩
    exact ⟨hid, head, hhead, heads, hheads, sessions, hsessions, tags, htags, heq⟩

theorem Repo.listHead_kind {r : Repo} {head : List Ref} (h : r.listHead = .ok head) :
    ∀ ref ∈ head, ref.kind = .head := by
  unfold Repo.listHead at h
  intro ref href
  cases hread : r.getRefRaw .head headRefName with
  | ok ref' =>
      rw [hread, Except.ok.injEq] at h
      subst h
      rw [List.mem_singleton.1 href]
      exact (Repo.getRefRaw_kind hread).1
  | error e =>
      rw [hread] at h
      dsimp only at h
      split_ifs at h
      rw [Except.ok.injEq] at h
      subst h
      cases href

theorem kind_of_readAll {r : Repo} {names : List String}
    (h : readAll (r.getRefRaw kind) names = .ok refs) : ∀ ref ∈ refs, ref.kind = kind := by
  intro ref href
  obtain ⟨name, -, hread⟩ := exists_of_mem_readAll h ref href
  exact (Repo.getRefRaw_kind hread).1

/-- The lifecycle events of a listing are those of its tags. -/
theorem Repo.states_of_listRefsRaw {r : Repo}
    (h : r.listRefsRaw = .ok refs) : ∃ tags,
      readAll (r.getRefRaw .tag) r.tags.keys = .ok tags ∧
      branchLifecycleStates refs = branchLifecycleStates tags := by
  obtain ⟨-, head, heads, sessions, tags, hhead, hheads, hsessions, htags, rfl⟩ :=
    Repo.listRefsRaw_eq_ok.1 h
  refine ⟨tags, htags, branchLifecycleStates_append fun ref href => ?_⟩
  rcases List.mem_append.1 href with href | href
  · rcases List.mem_append.1 href with href | href
    · rw [Repo.listHead_kind hhead ref href]; decide
    · rw [kind_of_readAll hheads ref href]; decide
  · rw [kind_of_readAll hsessions ref href]; decide

/-- The only branch ref of a name in a listing is the one its file holds. -/
theorem Repo.mem_listRefsRaw_branch {r : Repo} (h : r.listRefsRaw = .ok refs)
    : (ref ∈ refs ∧ ref.kind = .branch) ↔
      r.getRefRaw .branch ref.name = .ok ref := by
  obtain ⟨-, head, heads, sessions, tags, hhead, hheads, hsessions, htags, rfl⟩ :=
    Repo.listRefsRaw_eq_ok.1 h
  constructor
  · rintro ⟨href, hkind⟩
    have hmem : ref ∈ heads := by
      simp only [List.mem_append] at href
      rcases href with ((href | href) | href) | href
      · rw [Repo.listHead_kind hhead ref href] at hkind; cases hkind
      · exact href
      · rw [kind_of_readAll hsessions ref href] at hkind; cases hkind
      · rw [kind_of_readAll htags ref href] at hkind; cases hkind
    obtain ⟨name, -, hread⟩ := exists_of_mem_readAll hheads ref hmem
    rwa [(Repo.getRefRaw_kind hread).2 (by decide)]
  · intro hread
    obtain ⟨-, -, file, hfile, -⟩ := Repo.getRefRaw_branch.1 hread
    obtain ⟨ref', hmem, hread'⟩ :=
      exists_mem_of_readAll hheads ref.name (Dir.mem_keys_iff.2 ⟨file, hfile⟩)
    rw [hread, Except.ok.injEq] at hread'
    subst hread'
    refine ⟨?_, (Repo.getRefRaw_kind hread).1⟩
    simp only [List.mem_append]
    exact Or.inl (Or.inl (Or.inr hmem))

/-- There are two versions of the protocol. -/
theorem Repo.contextProtocol_eq_ok {r : Repo} {p : ℕ} (h : r.contextProtocol = .ok p) :
    p = 0 ∨ p = 1 := by
  unfold Repo.contextProtocol at h
  cases hp : r.protocol with
  | none => rw [hp, Except.ok.injEq] at h; omega
  | some text =>
      rw [hp] at h
      dsimp only at h
      split_ifs at h
      rw [Except.ok.injEq] at h
      omega

/-- The branch found in the projected listing. -/
theorem Repo.findRef_projected {r : Repo} {projected : List Ref} {name : String}
    {states : String → Option BranchLifecycleEvent} (hrefs : r.listRefsRaw = .ok refs)
    (hstates : branchLifecycleStates refs = .ok states)
    (hproj : projectBranchLifecycleRefs refs = .ok projected)
    (hraw : r.getRefRaw .branch name = .ok ref) {found : Ref} :
    findRef .branch name projected = .ok found ↔
      hides (states name) ref.target = false ∧ ref = found := by
  have hname : ref.name = name := (Repo.getRefRaw_kind hraw).2 (by decide)
  have hkind : ref.kind = .branch := (Repo.getRefRaw_kind hraw).1
  have honly : ∀ x ∈ projected, x.kind = .branch → x.name = name →
      x = ref ∧ hides (states name) ref.target = false := by
    intro x hx hxk hxn
    obtain ⟨hmem, hvis⟩ := (mem_projected_branch hstates hproj hxk).1 hx
    have hread := (Repo.mem_listRefsRaw_branch hrefs).1 ⟨hmem, hxk⟩
    rw [hxn, hraw, Except.ok.injEq] at hread
    subst hread
    exact ⟨rfl, hname ▸ hvis⟩
  unfold findRef
  cases hfind : projected.find? fun ref => ref.kind = .branch ∧ ref.name = name with
  | none =>
      have hnone := List.find?_eq_none.1 hfind
      refine ⟨fun h => (by cases h), fun ⟨hvis, _⟩ => ?_⟩
      have hmem : ref ∈ projected := (mem_projected_branch hstates hproj hkind).2
        ⟨((Repo.mem_listRefsRaw_branch hrefs).2 (hname.symm ▸ hraw)).1, hname.symm ▸ hvis⟩
      exact absurd (hnone ref hmem) (by simp [hkind, hname])
  | some x =>
      have hx := List.find?_some hfind
      simp only [decide_eq_true_eq] at hx
      obtain ⟨rfl, hvis⟩ := honly x (List.mem_of_find?_eq_some hfind) hx.1 hx.2
      simp [hvis]

/-- **When a branch is read.** -/
theorem Repo.getRef_branch {r : Repo} {name : String} :
    r.getRef .branch name = .ok ref ↔ r.getRefRaw .branch name = .ok ref ∧
      (r.contextProtocol = .ok 1 ∨ r.contextProtocol = .ok 0 ∧ ∃ refs states,
        r.listRefsRaw = .ok refs ∧ branchLifecycleStates refs = .ok states ∧
        hides (states name) ref.target = false) := by
  unfold Repo.getRef
  simp only [ne_eq, not_true_eq_false, false_and, if_false, bind_eq_ok]
  constructor
  · rintro ⟨raw, hraw, protocol, hprotocol, h⟩
    rcases Repo.contextProtocol_eq_ok hprotocol with rfl | rfl
    · simp only [Nat.zero_ne_one, if_false, bind_eq_ok] at h
      obtain ⟨refs, hrefs, projected, hproj, hfind⟩ := h
      obtain ⟨states, hstates, -⟩ := bind_eq_ok.1 hproj
      obtain ⟨hvis, rfl⟩ := (Repo.findRef_projected hrefs hstates hproj hraw).1 hfind
      exact ⟨hraw, Or.inr ⟨hprotocol, refs, states, hrefs, hstates, hvis⟩⟩
    · rw [if_pos rfl, Except.ok.injEq] at h
      exact ⟨h ▸ hraw, Or.inl hprotocol⟩
  · rintro ⟨hraw, hprotocol | ⟨hprotocol, refs, states, hrefs, hstates, hvis⟩⟩
    · exact ⟨ref, hraw, 1, hprotocol, by rw [if_pos rfl]⟩
    · refine ⟨ref, hraw, 0, hprotocol, ?_⟩
      have hproj : projectBranchLifecycleRefs refs =
          .ok (refs.filterMap (projectRef states refs)) := by
        rw [projectBranchLifecycleRefs, hstates, ok_bind]
      rw [if_neg (by decide), hrefs, ok_bind, hproj, ok_bind]
      exact (Repo.findRef_projected hrefs hstates hproj hraw).2 ⟨hvis, rfl⟩

end Backend
end CxtHub
