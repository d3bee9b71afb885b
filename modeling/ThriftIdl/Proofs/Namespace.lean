import Mathlib.Data.List.Induction
import ThriftIdl.Namespace
import ThriftIdl.Proofs.Lookup

/-!
The order of a namespace's members. Members stand grouped by kind, those of one kind in the order in
which they came; registering a definition adds its member to that order.
-/

namespace ThriftIdl

/-- The name under which a member is registered. -/
def Member.identifier (member : Member) : String := member.reference.identifier

namespace Namespace

/-- The members of the given kinds, kind by kind. -/
def ofKinds (kinds : List Kind) (members : List Member) : List Member :=
  kinds.flatMap fun kind => members.filter (·.kind == kind)

/-- Members in the order of their kinds, those of one kind in the given order. -/
def grouped (members : List Member) : List Member := ofKinds Kind.all members

theorem place_append {member : Member} {before after : List Member}
    (hbefore : ∀ other ∈ before, other.kind.rank ≤ member.kind.rank)
    (hafter : ∀ other ∈ after, member.kind.rank < other.kind.rank) :
    place member (before ++ after) = before ++ member :: after := by
  induction before with
  | nil =>
    cases after with
    | nil => rfl
    | cons other after => simp [place, hafter other List.mem_cons_self]
  | cons other before ih =>
    have hle := hbefore other List.mem_cons_self
    have htail := ih fun later hlater => hbefore later (List.mem_cons_of_mem other hlater)
    rw [List.cons_append, place, if_neg (by omega), htail, List.cons_append]

theorem kind_mem_of_mem_ofKinds {kinds : List Kind} {members : List Member} {member : Member}
    (h : member ∈ ofKinds kinds members) : member.kind ∈ kinds := by
  simp only [ofKinds, List.mem_flatMap, List.mem_filter, beq_iff_eq] at h
  obtain ⟨kind, hkind, _, rfl⟩ := h
  exact hkind

theorem ofKinds_append_of_notMem {kinds : List Kind} {member : Member} (members : List Member)
    (h : member.kind ∉ kinds) : ofKinds kinds (members ++ [member]) = ofKinds kinds members := by
  induction kinds with
  | nil => rfl
  | cons kind kinds ih =>
    simp only [List.mem_cons, not_or] at h
    have htail := ih h.2
    simp only [ofKinds, List.flatMap_cons] at htail ⊢
    rw [htail]
    simp [h.1]

/-- The kinds before a kind. -/
def kindsBelow (kind : Kind) : List Kind := Kind.all.filter (·.rank < kind.rank)

/-- The kinds after a kind. -/
def kindsAbove (kind : Kind) : List Kind := Kind.all.filter (kind.rank < ·.rank)

theorem all_eq_append (kind : Kind) : Kind.all = kindsBelow kind ++ kind :: kindsAbove kind := by
  cases kind <;> decide

theorem mem_kindsBelow {kind other : Kind} : other ∈ kindsBelow kind ↔ other.rank < kind.rank := by
  simp [kindsBelow, Kind.mem_all]

theorem mem_kindsAbove {kind other : Kind} : other ∈ kindsAbove kind ↔ kind.rank < other.rank := by
  simp [kindsAbove, Kind.mem_all]

theorem grouped_eq_append (kind : Kind) (members : List Member) :
    grouped members =
      (ofKinds (kindsBelow kind) members ++ members.filter (·.kind == kind)) ++
        ofKinds (kindsAbove kind) members := by
  rw [grouped, all_eq_append kind]
  simp [ofKinds]

/-- A member that is put in its place comes last among the members of its kind. -/
theorem place_grouped (member : Member) (members : List Member) :
    place member (grouped members) = grouped (members ++ [member]) := by
  have hlower : member.kind ∉ kindsBelow member.kind := by simp [mem_kindsBelow]
  have hupper : member.kind ∉ kindsAbove member.kind := by simp [mem_kindsAbove]
  rw [grouped_eq_append member.kind members, grouped_eq_append member.kind (members ++ [member]),
    ofKinds_append_of_notMem members hlower, ofKinds_append_of_notMem members hupper,
    place_append]
  · simp
  · intro other hother
    rcases List.mem_append.1 hother with hother | hother
    · exact Nat.le_of_lt (mem_kindsBelow.1 (kind_mem_of_mem_ofKinds hother))
    · simp only [List.mem_filter, beq_iff_eq] at hother
      exact Nat.le_of_eq (congrArg Kind.rank hother.2)
  · intro other hother
    exact mem_kindsAbove.1 (kind_mem_of_mem_ofKinds hother)

theorem place_perm (member : Member) (members : List Member) :
    (place member members).Perm (member :: members) := by
  induction members with
  | nil => exact List.Perm.refl _
  | cons other members ih =>
    rw [place]
    split
    · exact List.Perm.refl _
    · exact (ih.cons other).trans (List.Perm.swap member other members)

theorem grouped_perm (members : List Member) : (grouped members).Perm members := by
  induction members using List.reverseRecOn with
  | nil => exact List.Perm.refl _
  | append_singleton members member ih =>
    rw [← place_grouped]
    exact (place_perm member _).trans ((ih.cons member).trans
      (List.perm_append_singleton member members).symm)

theorem filter_ofKinds {kinds : List Kind} (hkinds : kinds.Nodup) (members : List Member)
    (kind : Kind) : (ofKinds kinds members).filter (·.kind == kind) =
      if kind ∈ kinds then members.filter (·.kind == kind) else [] := by
  induction kinds with
  | nil => rfl
  | cons first kinds ih =>
    rw [List.nodup_cons] at hkinds
    have htail := ih hkinds.2
    simp only [ofKinds, List.flatMap_cons, List.filter_append] at htail ⊢
    rw [htail, List.filter_filter]
    by_cases h : kind = first
    · subst h
      simp [hkinds.1]
    · have hnone : members.filter (fun member => member.kind == kind && member.kind == first) = [] := by
        rw [List.filter_eq_nil_iff]
        intro member _
        simp only [Bool.and_eq_true, beq_iff_eq, not_and]
        rintro rfl
        exact h
      rw [hnone]
      simp [h]

theorem filter_grouped (members : List Member) (kind : Kind) :
    (grouped members).filter (·.kind == kind) = members.filter (·.kind == kind) := by
  have hkinds : Kind.all.Nodup := by decide
  rw [grouped, filter_ofKinds hkinds, if_pos (Kind.mem_all kind)]

theorem grouped_grouped (members : List Member) : grouped (grouped members) = grouped members := by
  simp only [grouped, ofKinds]
  congr 1
  funext kind
  exact filter_grouped members kind

/-- No name stands twice among the members. -/
def Apart (members : List Member) : Prop := (members.map Member.identifier).Nodup

theorem Apart.eq_of_mem {members : List Member} (h : Apart members) {first second : Member}
    (hfirst : first ∈ members) (hsecond : second ∈ members)
    (heq : first.identifier = second.identifier) : first = second :=
  List.inj_on_of_nodup_map h hfirst hsecond heq

theorem apart_grouped {members : List Member} : Apart (grouped members) ↔ Apart members :=
  ((grouped_perm members).map _).nodup_iff

theorem member?_eq_some_iff {space : Namespace} (h : Apart space.members) {identifier : String}
    {member : Member} :
    space.member? identifier = some member ↔
      member ∈ space.members ∧ member.identifier = identifier :=
  Lookup.find?_eq_some_iff h

theorem register_eq_ok_iff {space result : Namespace} {document : String}
    {definition : Definition} :
    space.register document definition = .ok result ↔
      definition.name ∉ space.members.map (·.identifier) ∧
        result =
          { space with members := place (.ofDefinition document definition) space.members } := by
  have hdeclared : space.declaredAt? definition.name = none ↔
      definition.name ∉ space.members.map (·.identifier) := by
    simp [declaredAt?, member?, List.find?_eq_none, Member.identifier]
  rw [← hdeclared, register]
  split
  · next earlier heq => simp [heq]
  · next heq =>
    simp only [heq, true_and, Except.ok.injEq]
    exact eq_comm

/-- A namespace with the members that came in the given order. -/
def ofMembers (target name : String) (members : List Member) : Namespace :=
  ⟨target, name, grouped members⟩

theorem register_ofMembers_eq_ok_iff {target name : String} {members : List Member}
    {document : String} {definition : Definition} {result : Namespace} :
    (ofMembers target name members).register document definition = .ok result ↔
      definition.name ∉ members.map (·.identifier) ∧
        result = ofMembers target name (members ++ [.ofDefinition document definition]) := by
  have hnames : definition.name ∈ (grouped members).map (·.identifier) ↔
      definition.name ∈ members.map (·.identifier) :=
    ((grouped_perm members).map _).mem_iff
  rw [register_eq_ok_iff]
  simp only [ofMembers, hnames, place_grouped]

end Namespace

end ThriftIdl
