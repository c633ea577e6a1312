import BatchFlow.Proofs.Document.Landing

/-!
# What a vertex calls for

The elements that the vertices of a graph become, said without the names that are claimed on the
way. A vertex becomes one element or none, and the element of a handler stands right before that of
the first task that has the handler.
-/

namespace BatchFlow

namespace Vertex

/-- The handler of a task. -/
def handler? (v : Vertex) : Option Handler :=
  match v.role with
  | .task task => task.handler
  | _ => none

/-- The branches of a decision that have a label, with their labels. -/
def labelled (v : Vertex) : List (String × VertexId) :=
  v.arcs.filterMap fun a => (a.condition.bind Condition.label?).map (·, a.target)

/-- Where the default branch of a decision goes. -/
def default? (v : Vertex) : Option VertexId :=
  (v.arcs.find? fun a => a.condition.any Condition.isDefault).map Arc.target

end Vertex

/-- The handler is that of one of these vertices. -/
def Handler.On (h : Handler) (vs : List Vertex) : Prop := ∃ v ∈ vs, v.handler? = some h

theorem Handler.on_concat_iff {h : Handler} {vs : List Vertex} {v : Vertex} :
    h.On (vs ++ [v]) ↔ h.On vs ∨ v.handler? = some h := by
  simp [Handler.On, or_and_right, exists_or]

/-- Where a task goes on success: along its edge, or to the end if it has none. -/
inductive Graph.GoesOn (g : Graph) (finish : String) (v : Vertex) : String → Prop
  | along {next : VertexId} {ok : String} : v.child? = some next → g.LeadsTo next ok →
      GoesOn g finish v ok
  | ends : v.child? = none → GoesOn g finish v finish

/-- Where a task goes on failure, and the elements that have to be there for it. -/
inductive Translator.Guards (t : Translator) (kill : String) (earlier : List Vertex) :
    Option Handler → List Element → String → Prop
  | unguarded : Guards t kill earlier none [] kill
  | again {h : Handler} : h.On earlier → Guards t kill earlier (some h) [] h.name
  | first {h : Handler} {payload : Payload} : ¬ h.On earlier →
      t.mappings.map h.name h.action = .ok payload →
      Guards t kill earlier (some h) [⟨h.name, .action payload kill kill⟩] h.name

/-- The elements that a vertex becomes when these vertices come before it. -/
inductive Vertex.Calls (t : Translator) (g : Graph) (finish kill : String) (earlier : List Vertex)
    (v : Vertex) : List Element → Prop
  | silent : v.role = .start ∨ v.role = .finish ∨ v.role = .kill ∨ v.role = .decisionJoin →
      Calls t g finish kill earlier v []
  | decision {cases : List Case} {default : String} {next : VertexId} : v.role = .decision →
      List.Forall₂ (fun way case => case.condition = way.1 ∧ g.LeadsTo way.2 case.target)
        v.labelled cases →
      v.default? = some next → g.LeadsTo next default →
      Calls t g finish kill earlier v [⟨v.name, .decision cases default⟩]
  | fork {paths : List String} : v.role = .fork → v.arcs ≠ [] →
      List.Forall₂ g.LeadsTo v.children paths →
      Calls t g finish kill earlier v [⟨v.name, .fork paths⟩]
  | join {next : VertexId} {target : String} : v.role = .join → v.child? = some next →
      g.LeadsTo next target → Calls t g finish kill earlier v [⟨v.name, .join target⟩]
  | task {task : Task} {payload : Payload} {guards : List Element} {ok error : String} :
      v.role = .task task → t.mappings.map v.name task.action = .ok payload →
      g.GoesOn finish v ok → t.Guards kill earlier task.handler guards error →
      Calls t g finish kill earlier v (guards ++ [⟨v.name, .action payload ok error⟩])

/-- The elements that a list of vertices becomes, one vertex after the other. -/
inductive Graph.Written (t : Translator) (g : Graph) (finish kill : String) :
    List Vertex → List Vertex → List Element → Prop
  | nil (earlier : List Vertex) : Written t g finish kill earlier [] []
  | cons {earlier rest : List Vertex} {v : Vertex} {els more : List Element} :
      v.Calls t g finish kill earlier els → Written t g finish kill (earlier ++ [v]) rest more →
      Written t g finish kill earlier (v :: rest) (els ++ more)

namespace Emission

variable {g : Graph} {v : Vertex}

/-! ## Ways out of a decision -/

/-- How a decision has one of its branches: the label, if there is one, and the name it leads to. -/
def Takes (g : Graph) (a : Arc) (way : Option String × String) : Prop :=
  way.1 = a.condition.bind Condition.label? ∧ g.LeadsTo a.target way.2

def caseOf (way : Option String × String) : Option Case :=
  way.1.map fun condition => { target := way.2, condition }

def defaultOf (way : Option String × String) : Option String :=
  if way.1.isNone then some way.2 else none

/-- The body from the ways out. Without a default there is none. -/
def bodyOf (v : Vertex) (ways : List (Option String × String)) :
    Except DocumentError Element.Body :=
  match ways.findSome? defaultOf with
  | some default => .ok (.decision (ways.filterMap caseOf) default)
  | none => .error (.graph (.missingDefault v.name))

theorem takes_iff {a : Arc} {way : Option String × String} : Takes g a way ↔
    (do return (a.condition.bind Condition.label?, ← g.targetName a.target) :
      Except DocumentError _) = .ok way := by
  rw [bind_eq_ok_iff]
  simp only [Graph.targetName_eq_ok_iff]
  constructor
  · rintro ⟨hlabel, htarget⟩
    exact ⟨way.2, htarget, by rw [← hlabel]; rfl⟩
  · rintro ⟨target, htarget, hway⟩
    cases hway
    exact ⟨rfl, htarget⟩

theorem decisionBody_eq_ok_iff_ways {body : Element.Body} :
    decisionBody g v = .ok body ↔ ∃ ways default, List.Forall₂ (Takes g) v.arcs ways ∧
      ways.findSome? defaultOf = some default ∧
      .decision (ways.filterMap caseOf) default = body := by
  show v.arcs.mapM _ >>= bodyOf v = .ok body ↔ _
  rw [bind_eq_ok_iff]
  simp only [mapM_eq_ok_iff, ← takes_iff]
  refine exists_congr fun ways => ?_
  rw [exists_and_left]
  refine and_congr_right fun _ => ?_
  unfold bodyOf
  cases ways.findSome? defaultOf <;> simp

theorem forall₂_labelled {ways : List (Option String × String)}
    (h : List.Forall₂ (Takes g) v.arcs ways) :
    List.Forall₂ (fun way case => case.condition = way.1 ∧ g.LeadsTo way.2 case.target)
      v.labelled (ways.filterMap caseOf) := by
  refine List.rel_filterMap (fun a way hway => ?_) h
  rw [caseOf, hway.1]
  cases a.condition.bind Condition.label? with
  | none => exact .none
  | some label => exact .some ⟨rfl, hway.2⟩

/-- A branch without a label is the default one. -/
theorem rel_default {ways : List (Option String × String)}
    (hsome : ∀ a ∈ v.arcs, a.condition.isSome = true) (h : List.Forall₂ (Takes g) v.arcs ways) :
    Option.Rel g.LeadsTo v.default? (ways.findSome? defaultOf) := by
  unfold Vertex.default?
  generalize v.arcs = arcs at hsome h
  induction h with
  | nil => exact .none
  | @cons a way arcs ways hway _ ih =>
    obtain ⟨label, target⟩ := way
    obtain ⟨rfl, htarget⟩ := hway
    have hrest := ih fun b hb => hsome b (List.mem_cons_of_mem a hb)
    have ha := hsome a List.mem_cons_self
    match hc : a.condition with
    | none => simp [hc] at ha
    | some (.labeled label) =>
      simpa [List.find?, List.findSome?, defaultOf, hc, Condition.isDefault, Condition.label?]
        using hrest
    | some .otherwise =>
      simpa [List.find?, List.findSome?, defaultOf, hc, Condition.isDefault, Condition.label?]
        using Option.Rel.some htarget

/-- With one default at most, every branch is among the labelled ones or is the default. -/
theorem labelled_or_default {a : Arc} (ha : a ∈ v.arcs) (hsome : a.condition.isSome = true)
    (hone : v.arcs.countP (fun a => a.condition.any Condition.isDefault) ≤ 1) :
    (∃ label, (label, a.target) ∈ v.labelled) ∨ v.default? = some a.target := by
  match hc : a.condition with
  | none => simp [hc] at hsome
  | some (.labeled label) =>
    exact .inl ⟨label, List.mem_filterMap.mpr ⟨a, ha, by simp [hc, Condition.label?]⟩⟩
  | some .otherwise =>
    refine .inr ?_
    have hdefault : a.condition.any Condition.isDefault = true := by simp [hc, Condition.isDefault]
    rw [Vertex.default?]
    cases hfind : v.arcs.find? (fun a => a.condition.any Condition.isDefault) with
    | none => exact absurd hdefault (List.find?_eq_none.mp hfind a ha)
    | some b =>
      have hb : b ∈ v.arcs.filter fun a => a.condition.any Condition.isDefault :=
        List.mem_filter.mpr ⟨List.mem_of_find?_eq_some hfind,
          List.find?_some (p := fun a : Arc => a.condition.any Condition.isDefault) hfind⟩
      have ha' : a ∈ v.arcs.filter fun a => a.condition.any Condition.isDefault :=
        List.mem_filter.mpr ⟨ha, hdefault⟩
      rw [List.countP_eq_length_filter] at hone
      obtain ⟨c, hc⟩ := List.length_eq_one_iff.mp
        (Nat.le_antisymm hone (List.length_pos_of_mem hb))
      rw [hc, List.mem_singleton] at hb ha'
      rw [Option.map_some, hb, ha']

/-- The cases and the default are all the ways out. -/
theorem leads_of_decided {parents : Nat} {cases : List Case} {next : VertexId} {default : String}
    (hadmits : Role.decision.Admits parents (v.arcs.map Arc.condition))
    (hcases : List.Forall₂ (fun way case => case.condition = way.1 ∧ g.LeadsTo way.2 case.target)
      v.labelled cases)
    (hnext : v.default? = some next) (hdefault : g.LeadsTo next default) {a : Arc}
    (ha : a ∈ v.arcs) : ∃ name, g.LeadsTo a.target name := by
  have hsome : a.condition.isSome = true := hadmits.2.1 _ (List.mem_map_of_mem ha)
  have hone : v.arcs.countP (fun a => a.condition.any Condition.isDefault) ≤ 1 := by
    have hcount := hadmits.2.2
    rwa [List.countP_map] at hcount
  rcases labelled_or_default ha hsome hone with ⟨label, hmem⟩ | hnext'
  · obtain ⟨case, -, -, hcase⟩ := exists_of_mem_left hcases hmem
    exact ⟨case.target, hcase⟩
  · exact ⟨default, Option.some.inj (hnext.symm.trans hnext') ▸ hdefault⟩

/-! ## Bodies -/

theorem decisionBody_eq_ok_iff {body : Element.Body} {parents : Nat}
    (hadmits : Role.decision.Admits parents (v.arcs.map Arc.condition)) :
    decisionBody g v = .ok body ↔ ∃ cases default next,
      List.Forall₂ (fun way case => case.condition = way.1 ∧ g.LeadsTo way.2 case.target)
        v.labelled cases ∧
      v.default? = some next ∧ g.LeadsTo next default ∧ .decision cases default = body := by
  have hsome : ∀ a ∈ v.arcs, a.condition.isSome = true :=
    fun a ha => hadmits.2.1 _ (List.mem_map_of_mem ha)
  rw [decisionBody_eq_ok_iff_ways]
  constructor
  · rintro ⟨ways, default, hways, hdefault, rfl⟩
    have hrel := rel_default hsome hways
    rw [hdefault] at hrel
    cases hnext : v.default? with
    | none =>
      rw [hnext] at hrel
      cases hrel
    | some next =>
      rw [hnext] at hrel
      cases hrel with
      | some hleads => exact ⟨_, default, next, forall₂_labelled hways, rfl, hleads, rfl⟩
  · rintro ⟨cases, default, next, hcases, hnext, hdefault, rfl⟩
    have hleads : ∀ a ∈ v.arcs, ∃ way, Takes g a way := by
      intro a ha
      obtain ⟨name, hname⟩ := leads_of_decided hadmits hcases hnext hdefault ha
      exact ⟨(_, name), rfl, hname⟩
    obtain ⟨ways, hways⟩ := exists_forall₂ hleads
    have hrel := rel_default hsome hways
    rw [hnext] at hrel
    -- The names are fixed by the graph, so the cases and the default are the ones given.
    have hcases' : ways.filterMap caseOf = cases := by
      refine List.right_unique_forall₂' ?_ (forall₂_labelled hways) hcases
      rintro way ⟨target, label⟩ ⟨target', label'⟩ ⟨rfl, hleads⟩ ⟨rfl, hleads'⟩
      exact congrArg (Case.mk · way.1) (hleads.unique hleads')
    refine ⟨ways, default, hways, ?_, by rw [hcases']⟩
    cases hfound : ways.findSome? defaultOf with
    | none =>
      rw [hfound] at hrel
      cases hrel
    | some default' =>
      rw [hfound] at hrel
      cases hrel with
      | some hdefault' => rw [hdefault'.unique hdefault]

theorem forkBody_eq_ok_iff {body : Element.Body} :
    forkBody g v = .ok body ↔ v.arcs ≠ [] ∧ ∃ paths, List.Forall₂ g.LeadsTo v.children paths ∧
      .fork paths = body := by
  unfold forkBody
  by_cases hnil : v.arcs = []
  · simp [hnil, bind, Except.bind, throw, throwThe, MonadExceptOf.throw]
  · have hempty : v.arcs.isEmpty = false := by simpa using hnil
    simp only [hempty, Bool.false_eq_true, if_false]
    show (v.children.mapM g.targetName >>= fun paths => .ok (.fork paths)) = .ok body ↔ _
    rw [bind_eq_ok_iff]
    simp [mapM_eq_ok_iff, Graph.targetName_eq_ok_iff, hnil]

theorem joinBody_eq_ok_iff {body : Element.Body} :
    joinBody g v = .ok body ↔ ∃ next target, v.child? = some next ∧ g.LeadsTo next target ∧
      .join target = body := by
  unfold joinBody
  cases v.child? with
  | none => simp
  | some next =>
    show (g.targetName next >>= fun target => .ok (.join target)) = .ok body ↔ _
    rw [bind_eq_ok_iff]
    simp [Graph.targetName_eq_ok_iff]

end Emission
end BatchFlow
