/-
# The projection of the selected branches

A push projects only the bindings that its branches have to do with: those that a queue reaches
from the selection through identities, names and dependencies (`publicationComponent`).  An event
outside has no name and no identity of the component, so the component binds its names and
identities as the whole history does (`project_part`), and whatever else the history holds does
not matter: a component depends only on its own events (`mem_publicationComponent_of`).

The queue takes an empty name or identity for none, so a binding without a name joins no other
binding of that name (`nameless_outside_component`).  The agreement is for bindings that have an
id, names and an identity (`BindingsNamed`), as the events have that `PlanPublication` has checked
with `ValidateHistoryEvent` (`bindingsNamed_of_valid`).
-/

import CxtHub.Cli.BranchScope
import CxtHub.Cli.PublicationOrder

namespace CxtHub
namespace Cli

open Relation (ReflTransGen)

variable {d : Digest} {l l' bindings : List HistoryEvent} {selected : List PublicationBranch}
  {e f : HistoryEvent} {id n : String}

/-- The bindings among some events, each id once. -/
def publicationBindings (events : List HistoryEvent) : List HistoryEvent :=
  unseenEvents [] (events.filter isBranchBindingEvent)

/-- The ids that the queue starts with. -/
def publicationHeads (bindings : List HistoryEvent) (selected : List PublicationBranch) :
    List String :=
  selected.flatMap fun b => bindingsOf bindings b.branchID ++ bindingsNaming bindings b.branch

/-- The bindings that the queue reaches. -/
def publicationComponent (events : List HistoryEvent) (selected : List PublicationBranch) :
    List HistoryEvent :=
  let bindings := publicationBindings events
  (Worklist.reach (bindingNeighbours bindings) (fun _ => false) (bindings.map HistoryEvent.id)
    (publicationHeads bindings selected)).filterMap fun id => bindings.find? fun e => e.id = id

theorem projectPublicationBranches_eq :
    projectPublicationBranches d l selected =
      projectContextBranches d (publicationComponent l selected) := rfl

/-! ### The queue -/

/-- The bindings of an identity. -/
theorem mem_bindingsOf {identity : String} :
    id ∈ bindingsOf bindings identity ↔
      identity ≠ "" ∧ ∃ e ∈ bindings, e.branchID = identity ∧ e.id = id := by
  unfold bindingsOf
  split_ifs with h <;> simp [h, and_assoc]

/-- The bindings that name a branch. -/
theorem mem_bindingsNaming :
    id ∈ bindingsNaming bindings n ↔
      n ≠ "" ∧ ∃ e ∈ bindings, (e.branch = n ∨ e.previousBranch = n) ∧ e.id = id := by
  unfold bindingsNaming
  split_ifs with h <;> simp [h, and_assoc]

/-- The ids that are reached from the selection. -/
def Reached (bindings : List HistoryEvent) (selected : List PublicationBranch) (id : String) :
    Prop :=
  ∃ h ∈ publicationHeads bindings selected,
    ReflTransGen (Worklist.Edge (bindingNeighbours bindings) fun _ => false) h id

/-- A neighbour of what is reached is reached. -/
theorem Reached.next {b : String} (h : Reached bindings selected id)
    (hb : b ∈ bindingNeighbours bindings id) : Reached bindings selected b := by
  obtain ⟨head, hhead, hpath⟩ := h
  exact ⟨head, hhead, hpath.tail ⟨rfl, hb⟩⟩

/-- Each binding is found by its id. -/
theorem find?_publicationBindings (he : e ∈ publicationBindings l) :
    (publicationBindings l).find? (fun f => f.id = e.id) = some e := by
  cases h : (publicationBindings l).find? fun f => f.id = e.id with
  | none => exact absurd (List.find?_eq_none.1 h e he) (by simp)
  | some f =>
      have hid : f.id = e.id := by simpa using List.find?_some h
      rw [List.inj_on_of_nodup_map nodup_unseenEvents (List.mem_of_find?_eq_some h) he hid]

/-- The component is what is reached from the selected identities. -/
theorem mem_publicationComponent :
    e ∈ publicationComponent l selected ↔
      e ∈ publicationBindings l ∧ Reached (publicationBindings l) selected e.id := by
  have hdom : ∀ b, b ∉ (publicationBindings l).map HistoryEvent.id →
      bindingNeighbours (publicationBindings l) b = [] := by
    intro b hb
    rw [bindingNeighbours, List.find?_eq_none.2 fun f hf => ?_]
    simpa using fun heq : f.id = b => hb (heq ▸ List.mem_map_of_mem hf)
  simp only [publicationComponent, List.mem_filterMap, Worklist.mem_reach hdom, true_and]
  constructor
  · rintro ⟨id, hreach, hfind⟩
    obtain rfl : e.id = id := by simpa using List.find?_some hfind
    exact ⟨List.mem_of_find?_eq_some hfind, hreach⟩
  · rintro ⟨he, hreach⟩
    exact ⟨e.id, hreach, find?_publicationBindings he⟩

/-- The events next to one of the component are in it. -/
theorem mem_publicationComponent_next (he : e ∈ publicationComponent l selected)
    (hf : f ∈ publicationBindings l)
    (h : f.id ∈ bindingsOf (publicationBindings l) e.branchID ++
      bindingsNaming (publicationBindings l) e.branch ++
      bindingsNaming (publicationBindings l) e.previousBranch ++ historyDependencies e) :
    f ∈ publicationComponent l selected := by
  rw [mem_publicationComponent] at he ⊢
  refine ⟨hf, he.2.next ?_⟩
  rwa [bindingNeighbours, find?_publicationBindings he.1]

/-- A name that is selected, or that an event of the component takes or gives up. -/
def NamedIn (l : List HistoryEvent) (selected : List PublicationBranch) (n : String) : Prop :=
  (∃ b ∈ selected, b.branch = n) ∨
    ∃ e ∈ publicationComponent l selected, e.branch = n ∨ e.previousBranch = n

/-- An identity that is selected, or that an event of the component has. -/
def IdentifiedIn (l : List HistoryEvent) (selected : List PublicationBranch) (id : String) : Prop :=
  (∃ b ∈ selected, b.branchID = id) ∨ ∃ e ∈ publicationComponent l selected, e.branchID = id

/-- All bindings of a name are in the component with one of them. -/
theorem NamedIn.mem (h : NamedIn l selected n) (hn : n ≠ "") (hf : f ∈ publicationBindings l)
    (huses : f.branch = n ∨ f.previousBranch = n) : f ∈ publicationComponent l selected := by
  have hmem : f.id ∈ bindingsNaming (publicationBindings l) n :=
    mem_bindingsNaming.2 ⟨hn, f, hf, huses, rfl⟩
  rcases h with ⟨b, hb, rfl⟩ | ⟨e, he, hor⟩
  · exact mem_publicationComponent.2
      ⟨hf, f.id, List.mem_flatMap.2 ⟨b, hb, List.mem_append_right _ hmem⟩, .refl⟩
  · refine mem_publicationComponent_next he hf ?_
    rcases hor with rfl | rfl <;> simp [hmem]

/-- And so are all bindings of an identity. -/
theorem IdentifiedIn.mem (h : IdentifiedIn l selected id) (hid : id ≠ "")
    (hf : f ∈ publicationBindings l) (huses : f.branchID = id) :
    f ∈ publicationComponent l selected := by
  have hmem : f.id ∈ bindingsOf (publicationBindings l) id :=
    mem_bindingsOf.2 ⟨hid, f, hf, huses, rfl⟩
  rcases h with ⟨b, hb, rfl⟩ | ⟨e, he, rfl⟩
  · exact mem_publicationComponent.2
      ⟨hf, f.id, List.mem_flatMap.2 ⟨b, hb, List.mem_append_left _ hmem⟩, .refl⟩
  · exact mem_publicationComponent_next he hf (by simp [hmem])

/-! ### A component depends on its own events -/

/-- Events with one id are the same event. -/
def OnePerID (l : List HistoryEvent) : Prop := ∀ e ∈ l, ∀ f ∈ l, e.id = f.id → e = f

instance (l : List HistoryEvent) : Decidable (OnePerID l) :=
  inferInstanceAs (Decidable (∀ e ∈ l, ∀ f ∈ l, _))

/-- The bindings are the binding events, when ids are distinct. -/
theorem mem_publicationBindings (h : OnePerID (l.filter isBranchBindingEvent)) :
    e ∈ publicationBindings l ↔ e ∈ l ∧ isBranchBindingEvent e = true := by
  rw [← List.mem_filter]
  refine ⟨fun he => (mem_unseenEvents he).1, fun he => ?_⟩
  obtain ⟨f, hf, hid⟩ := exists_unseenEvents he (List.not_mem_nil (a := e.id))
  rwa [h e he f (mem_unseenEvents hf).1 hid.symm]

/-- What the queue reaches it reaches through the events of the component. -/
theorem Reached.mono (h : Reached (publicationBindings l) selected id)
    (hkept : ∀ e ∈ publicationComponent l selected, e ∈ publicationBindings l') :
    Reached (publicationBindings l') selected id := by
  -- an event of the first history whose id is reached is one of the second
  have hmove : ∀ e ∈ publicationBindings l, Reached (publicationBindings l) selected e.id →
      e ∈ publicationBindings l' := fun e he hreach =>
    hkept e (mem_publicationComponent.2 ⟨he, hreach⟩)
  have hof : ∀ identity b, Reached (publicationBindings l) selected b →
      b ∈ bindingsOf (publicationBindings l) identity →
      b ∈ bindingsOf (publicationBindings l') identity := by
    intro identity b hreach hb
    obtain ⟨hne, e, he, hid, rfl⟩ := mem_bindingsOf.1 hb
    exact mem_bindingsOf.2 ⟨hne, e, hmove e he hreach, hid, rfl⟩
  have hnaming : ∀ name b, Reached (publicationBindings l) selected b →
      b ∈ bindingsNaming (publicationBindings l) name →
      b ∈ bindingsNaming (publicationBindings l') name := by
    intro name b hreach hb
    obtain ⟨hne, e, he, hname, rfl⟩ := mem_bindingsNaming.1 hb
    exact mem_bindingsNaming.2 ⟨hne, e, hmove e he hreach, hname, rfl⟩
  obtain ⟨head, hhead, hpath⟩ := h
  induction hpath with
  | refl =>
      refine ⟨head, ?_, .refl⟩
      obtain ⟨b, hb, hmem⟩ := List.mem_flatMap.1 hhead
      have hreach : Reached (publicationBindings l) selected head := ⟨head, hhead, .refl⟩
      exact List.mem_flatMap.2 ⟨b, hb, List.mem_append.2
        ((List.mem_append.1 hmem).imp (hof _ _ hreach) (hnaming _ _ hreach))⟩
  | @tail a b hpath hedge ih =>
      refine ih.next ?_
      have ha : Reached (publicationBindings l) selected a := ⟨head, hhead, hpath⟩
      have hb := ha.next hedge.2
      have hnext := hedge.2
      rw [bindingNeighbours] at hnext ⊢
      cases hfind : (publicationBindings l).find? fun e => e.id = a with
      | none => simp [hfind] at hnext
      | some e =>
          obtain rfl : e.id = a := by simpa using List.find?_some hfind
          rw [hfind] at hnext
          rw [find?_publicationBindings (hmove e (List.mem_of_find?_eq_some hfind) ha)]
          simp only [List.mem_append] at hnext ⊢
          exact hnext.imp_left (Or.imp (Or.imp (hof _ _ hb) (hnaming _ _ hb)) (hnaming _ _ hb))

/-- The component of a history whose events outside the component were changed. -/
theorem mem_publicationComponent_of (hl : OnePerID (l.filter isBranchBindingEvent))
    (hl' : OnePerID (l'.filter isBranchBindingEvent))
    (hkept : ∀ e ∈ l, e ∉ l' → e ∉ publicationComponent l selected)
    (he : e ∈ publicationComponent l selected) : e ∈ publicationComponent l' selected := by
  have hmoved : ∀ f ∈ publicationComponent l selected, f ∈ publicationBindings l' := by
    intro f hf
    obtain ⟨hmem, hbind⟩ := (mem_publicationBindings hl).1 (mem_publicationComponent.1 hf).1
    refine (mem_publicationBindings hl').2 ⟨?_, hbind⟩
    by_contra hgone
    exact hkept f hmem hgone hf
  exact mem_publicationComponent.2 ⟨hmoved e he, (mem_publicationComponent.1 he).2.mono hmoved⟩

/-! ### The projection -/

/-- The bindings among the events have an id, names and an identity. -/
def BindingsNamed (l : List HistoryEvent) : Prop :=
  ∀ e ∈ l, isBranchBindingEvent e = true →
    e.id ≠ "" ∧ "" ∉ ContextBranchProjection.names e ∧ e.branchID ≠ ""

instance (l : List HistoryEvent) : Decidable (BindingsNamed l) :=
  inferInstanceAs (Decidable (∀ e ∈ l, _))

/-- Checked events have what their bindings need. -/
theorem bindingsNamed_of_valid (hl : ∀ e ∈ l, validateHistoryEvent e = .ok ()) :
    BindingsNamed l := by
  intro e he hbind
  have h := hl e he
  have hne := id_ne_empty_of_valid h
  have hempty : validateBranchName "" ≠ .ok () := by decide
  simp only [validateHistoryEvent, bind_eq_ok, refuse_eq_ok, exists_unit_iff, not_or,
    onlyIf_eq_ok] at h
  obtain ⟨-, -, ⟨hid, -⟩, -, hbranch, -, -, -, -, -, hrename, -⟩ := h
  have hnamed : e.branch ≠ "" := by
    intro heq
    rw [heq] at hbranch
    refine hempty (hbranch (.inr fun hkind => ?_))
    simp [isBranchBindingEvent, hkind] at hbind
  refine ⟨hne, ?_, hid⟩
  simp only [ContextBranchProjection.names, HistoryEvent.oldName, List.mem_cons, List.not_mem_nil,
    or_false, not_or]
  refine ⟨?_, hnamed.symm⟩
  split_ifs with hkind
  · intro heq
    rw [validateRename, if_pos hkind, ← heq] at hrename
    simp [hempty] at hrename
  · exact hnamed.symm

/-- The component has what its events depend on, when the history projects. -/
theorem closedPart_publicationComponent {p : ContextBranchProjection}
    (h : projectContextBranches d (publicationBindings l) = .ok p) :
    ClosedPart (publicationBindings l) (publicationComponent l selected) where
  subset _ he := (mem_publicationComponent.1 he).1
  closed e he parent hparent := by
    obtain ⟨out, horder, -⟩ := projectContextBranches_eq_ok.1 h
    have hbind := List.of_mem_filter (mem_unseenEvents (mem_publicationComponent.1 he).1).1
    obtain ⟨f, hf, rfl⟩ := (enumerates_of_order horder).exists_dependency
      (List.mem_filter.2 ⟨(mem_publicationComponent.1 he).1, hbind⟩) hparent
    exact ⟨f, mem_publicationComponent_next he (List.mem_of_mem_filter hf) (by simp [hparent]), rfl⟩

/-- The bindings of a history project as the history does. -/
theorem project_publicationBindings {p : ContextBranchProjection}
    (h : projectContextBranches d l = .ok p) :
    projectContextBranches d (publicationBindings l) = .ok p := by
  have hfilter : projectContextBranches d (l.filter isBranchBindingEvent) = .ok p := by
    simpa only [projectContextBranches, List.filter_filter, Bool.and_self] using h
  obtain ⟨out, horder, -⟩ := projectContextBranches_eq_ok.1 h
  have hout := enumerates_of_order horder
  have hone : OnePerID (l.filter isBranchBindingEvent) := fun e he f hf =>
    List.inj_on_of_nodup_map hout.nodup ((hout.mem e).2 he) ((hout.mem f).2 hf)
  refine (projectContextBranches_of_mem fun e => ?_).1 hfilter
  rw [mem_publicationBindings hone, List.mem_filter]

/-- A branch without a name is born and archived, and another one is born under no name. -/
def namelessHistory : List HistoryEvent :=
  [{ id := "1", repoID := "r", branchID := "x", branch := "", kind := .birth, createdAt := 1 },
   { id := "2", repoID := "r", branchID := "x", branch := "", kind := .archive
     bindingParent := "1", createdAt := 2 },
   { id := "3", repoID := "r", branchID := "y", branch := "", kind := .birth
     bindingParent := "2", createdAt := 3 }]

/-- The queue does not follow the empty name, so the component of the archived branch leaves the
other one out, though both have that name. -/
theorem nameless_outside_component :
    ∃ p q, projectContextBranches zeroDigest namelessHistory = .ok p ∧
      projectPublicationBranches zeroDigest namelessHistory [⟨"main", "x"⟩] = .ok q ∧
      NamedIn namelessHistory [⟨"main", "x"⟩] "" ∧
      p.active "" = some { id := "y", name := "", eventID := "3" } ∧ q.active "" = none := by
  obtain ⟨p, hp⟩ := exists_of_isOk
    (show (projectContextBranches zeroDigest namelessHistory).isOk = true by decide +kernel)
  obtain ⟨q, hq⟩ := exists_of_isOk
    (show (projectPublicationBranches zeroDigest namelessHistory [⟨"main", "x"⟩]).isOk = true by
      decide +kernel)
  have hfull : (projectContextBranches zeroDigest namelessHistory).map (·.active "") =
      .ok (some { id := "y", name := "", eventID := "3" }) := by decide +kernel
  have hpart : (projectPublicationBranches zeroDigest namelessHistory [⟨"main", "x"⟩]).map
      (·.active "") = .ok none := by decide +kernel
  rw [hp] at hfull
  rw [hq] at hpart
  have hnamed : ∃ e ∈ publicationComponent namelessHistory [⟨"main", "x"⟩],
      e.branch = "" ∨ e.previousBranch = "" := by decide +kernel
  exact ⟨p, q, hp, hq, .inr hnamed, Except.ok.inj hfull, Except.ok.inj hpart⟩

/-- **The projection of the selected branches is the restriction of the full one.**  It succeeds
where the full one does, with the same bindings of the names and identities of its component; and
events outside the component do not change it. -/
theorem projectPublicationBranches_restricts (d : Digest) (selected : List PublicationBranch) :
    (∀ (l : List HistoryEvent) (p : ContextBranchProjection),
      BindingsNamed l → projectContextBranches d l = .ok p →
      ∃ q, projectPublicationBranches d l selected = .ok q ∧
        (∀ n, NamedIn l selected n → q.active n = p.active n ∧ q.released n = p.released n) ∧
        ∀ id, IdentifiedIn l selected id → q.byID id = p.byID id) ∧
    ∀ l l' : List HistoryEvent, OnePerID (l.filter isBranchBindingEvent) →
      OnePerID (l'.filter isBranchBindingEvent) →
      (∀ e ∈ l, e ∉ l' → e ∉ publicationComponent l selected) →
      (∀ e ∈ l', e ∉ l → e ∉ publicationComponent l' selected) →
      ∀ q, projectPublicationBranches d l selected = .ok q ↔
        projectPublicationBranches d l' selected = .ok q := by
  refine ⟨fun l p hnamed h => ?_, fun l l' hl hl' hout hout' q => ?_⟩
  · have hbindings := project_publicationBindings h
    have hnamed : BindingsNamed (publicationBindings l) := fun e he =>
      hnamed e (List.mem_of_mem_filter (mem_unseenEvents he).1)
    obtain ⟨q, hq, hnames, hids⟩ := project_part nodup_unseenEvents
      (fun e he hbind => (hnamed e he hbind).1)
      (show ClosedPart _ (publicationComponent l selected) from
        closedPart_publicationComponent hbindings) hbindings
    refine ⟨q, hq, fun n hn => ?_, fun id hid => ?_⟩
    · obtain ⟨hactive, hreleased⟩ := hnames n fun e he hbind hname => by
        refine hn.mem ?_ he (branch_of_mem_names hname)
        rintro rfl
        exact (hnamed e he hbind).2.1 hname
      exact ⟨hactive.symm, hreleased.symm⟩
    · refine (hids id fun e he hbind heq => ?_).symm
      exact hid.mem (heq ▸ (hnamed e he hbind).2.2) he heq.symm
  · rw [projectPublicationBranches_eq, projectPublicationBranches_eq]
    exact projectContextBranches_of_mem fun e =>
      ⟨mem_publicationComponent_of hl hl' hout, mem_publicationComponent_of hl' hl hout'⟩

/-- A branch `main` is renamed to `trunk`; a second branch takes the name, is renamed to `old` and
archived, by an event that depends on the birth of a third one; a fourth has to do with none of
them. -/
def successiveHistory : List HistoryEvent :=
  [{ id := "1", repoID := "r", branchID := "x", branch := "main", kind := .birth, createdAt := 1 },
   { id := "2", repoID := "r", branchID := "x", branch := "trunk", kind := .rename
     previousBranch := "main", bindingParent := "1", createdAt := 2 },
   { id := "3", repoID := "r", branchID := "y", branch := "main", kind := .birth
     bindingParent := "2", createdAt := 3 },
   { id := "4", repoID := "r", branchID := "y", branch := "old", kind := .rename
     previousBranch := "main", bindingParent := "3", createdAt := 4 },
   { id := "5", repoID := "r", branchID := "z", branch := "base", kind := .birth, createdAt := 5 },
   { id := "6", repoID := "r", branchID := "y", branch := "old", kind := .archive
     bindingParent := "4", nameParent := "5", createdAt := 6 },
   { id := "7", repoID := "r", branchID := "w", branch := "side", kind := .birth, createdAt := 7 }]

/-- From the name `trunk` the queue reaches the second branch by the name that was given up, its
archive by the identity and the third branch by a dependency; without the fourth branch the
projection is the same. -/
theorem projectPublicationBranches_restricts_successive :
    ∃ p q, projectContextBranches zeroDigest successiveHistory = .ok p ∧
      projectPublicationBranches zeroDigest successiveHistory [⟨"trunk", ""⟩] = .ok q ∧
      (publicationComponent successiveHistory [⟨"trunk", ""⟩]).length = 6 ∧
      (∀ n ∈ ["trunk", "main", "old", "base"],
        q.active n = p.active n ∧ q.released n = p.released n) ∧
      (∀ id ∈ ["x", "y", "z"], q.byID id = p.byID id) ∧
      projectPublicationBranches zeroDigest (successiveHistory.take 6) [⟨"trunk", ""⟩] = .ok q := by
  obtain ⟨hrestricts, houtside⟩ := projectPublicationBranches_restricts zeroDigest [⟨"trunk", ""⟩]
  obtain ⟨p, hp⟩ := exists_of_isOk
    (show (projectContextBranches zeroDigest successiveHistory).isOk = true by decide +kernel)
  obtain ⟨q, hq, hnames, hids⟩ := hrestricts successiveHistory p (by decide +kernel) hp
  have hnamed : ∀ n ∈ ["trunk", "main", "old", "base"],
      ∃ e ∈ publicationComponent successiveHistory [⟨"trunk", ""⟩],
        e.branch = n ∨ e.previousBranch = n := by decide +kernel
  have hidentified : ∀ id ∈ ["x", "y", "z"],
      ∃ e ∈ publicationComponent successiveHistory [⟨"trunk", ""⟩], e.branchID = id := by
    decide +kernel
  have hsame := (houtside successiveHistory (successiveHistory.take 6) (by decide +kernel)
    (by decide +kernel) (by decide +kernel) (by decide +kernel) q).1 hq
  exact ⟨p, q, hp, hq, by decide +kernel, fun n hn => hnames n (.inr (hnamed n hn)),
    fun id hid => hids id (.inr (hidentified id hid)), hsame⟩

end Cli
end CxtHub
