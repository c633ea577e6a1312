import BatchFlow.Proofs.Outline.Wires

/-!
# What laying out draws

Laying out a row adds its sites and its wires to the sheet, and the stub behind the row is the port
of exit. Each step of a layout extends the sheet, and extensions compose.
-/

namespace BatchFlow

def Port.stub (q : Port) : Stub := ⟨q.source, q.condition⟩

/-- The sites of stations, the first of which has a given id. -/
def sitesOf (sts : List Station) (p : Nat) : List Site := (sts.zipIdx p).map fun x => (x.2, x.1.2)

/-- The stations that the layout of a row adds, those between the ends and the kill vertex. -/
def Row.laidOut (r : Row) (taken : List String) : List Station :=
  (r.edits taken).filterMap Graph.Edit.station?

theorem sitesOf_append (sts sts' : List Station) (p : Nat) :
    sitesOf (sts ++ sts') p = sitesOf sts p ++ sitesOf sts' (p + sts.length) := by
  simp [sitesOf, List.zipIdx_append]

theorem length_sitesOf (sts : List Station) (p : Nat) : (sitesOf sts p).length = sts.length := by
  simp [sitesOf]

theorem mem_sitesOf {sts : List Station} {v : Nat} {role : Role} :
    (v, role) ∈ sitesOf sts 0 ↔ ∃ name, sts[v]? = some (name, role) := by
  simp only [sitesOf, List.mem_map, Prod.mk.injEq, Prod.exists]
  constructor
  · rintro ⟨name, role, v, h, rfl, rfl⟩
    exact ⟨name, List.mem_zipIdx_iff_getElem?.mp h⟩
  · rintro ⟨name, h⟩
    exact ⟨name, role, v, List.mem_zipIdx_iff_getElem?.mpr h, rfl, rfl⟩

/-- The second sheet goes on from the first by edits that draw these sites and wires. -/
def Sheet.Extends (s s' : Sheet) (sites : List Site) (ws : List Wire) : Prop :=
  ∃ edits sts, s'.edits = s.edits ++ edits ∧ s'.next = s.next + sites.length ∧
    sitesOf sts s.next = sites ∧ Draws s.next edits sts ws

namespace Sheet.Extends

variable {s s' s'' : Sheet} {sites sites' : List Site} {ws ws' : List Wire}

theorem refl (s : Sheet) : s.Extends s [] [] :=
  ⟨[], [], (List.append_nil _).symm, rfl, rfl, .nil _⟩

theorem trans (h : s.Extends s' sites ws) (h' : s'.Extends s'' sites' ws') :
    s.Extends s'' (sites ++ sites') (ws ++ ws') := by
  obtain ⟨edits, sts, he, hn, hsites, hdraws⟩ := h
  obtain ⟨edits', sts', he', hn', hsites', hdraws'⟩ := h'
  have hlen : s'.next = s.next + sts.length := by
    rw [hn, ← hsites, length_sitesOf]
  refine ⟨edits ++ edits', sts ++ sts', ?_, ?_, ?_, hdraws.append (hlen ▸ hdraws')⟩
  · rw [he', he, List.append_assoc]
  · rw [hn', hn, List.length_append, Nat.add_assoc]
  · rw [sitesOf_append, ← hlen, hsites, hsites']

theorem next_eq (h : s.Extends s' sites ws) : s'.next = s.next + sites.length := by
  obtain ⟨_, _, _, hn, _, _⟩ := h
  exact hn

theorem add {edit : Graph.Edit} {name : String} {role : Role}
    (h : edit.station? = some (name, role)) : s.Extends (s.add edit) [(s.next, role)] [] :=
  ⟨[edit], [(name, role)], rfl, rfl, rfl, .station h (.nil _)⟩

theorem addNamed {stem : Stem} {edit : String → Graph.Edit} {role : Role}
    (h : ∀ name, (edit name).station? = some (name, role)) :
    s.Extends (s.addNamed stem edit) [(s.next, role)] [] :=
  ⟨[edit _], [(_, role)], rfl, rfl, rfl, .station (h _) (.nil _)⟩

theorem connect {q : Port} {target : Nat} (hs : q.source < s.next) (ht : target < s.next) :
    s.Extends (s.connect q.stub target) [] [⟨q, target⟩] :=
  ⟨[.ofWire ⟨q, target⟩], [], rfl, rfl, rfl, .wire hs ht (.nil _)⟩

theorem openBlock {q : Port} {stem stem' : Stem} {edit edit' : String → Graph.Edit}
    {role role' : Role} (hq : q.source < s.next)
    (h : ∀ name, (edit name).station? = some (name, role))
    (h' : ∀ name, (edit' name).station? = some (name, role')) :
    s.Extends (((s.addNamed stem edit).addNamed stem' edit').connect q.stub s.next)
      [(s.next, role), (s.next + 1, role')] [⟨q, s.next⟩] := by
  have hnext : ((s.addNamed stem edit).addNamed stem' edit').next = s.next + 2 := rfl
  exact ((addNamed h).trans (addNamed h')).trans
    (connect (hnext ▸ Nat.lt_add_right 2 hq) (hnext ▸ Nat.lt_add_of_pos_right Nat.two_pos))

end Sheet.Extends

/-- A block and what stands behind it, given the arms and the rest. -/
theorem Arms.layout_block {arms : Arms} {next : Row} {q : Port} {s s' : Sheet} {role role' : Role}
    (hopen : s.Extends s' [(s.next, role), (s.next + 1, role')] [⟨q, s.next⟩])
    (harms : s'.Extends (arms.layout s.next (s.next + 1) s') (arms.sites s'.next)
      (arms.wires s.next 0 s'.next))
    (hnext : ∀ s'' : Sheet, s.next + 1 < s''.next →
      (next.layout ⟨s.next + 1, .none⟩ s'').1 =
          (next.exit ⟨s.next + 1, 0, .none⟩ s''.next).stub ∧
        s''.Extends (next.layout ⟨s.next + 1, .none⟩ s'').2 (next.sites s''.next)
          (next.wires ⟨s.next + 1, 0, .none⟩ s''.next)) :
    (next.layout ⟨s.next + 1, .none⟩ (arms.layout s.next (s.next + 1) s')).1 =
        (next.exit ⟨s.next + 1, 0, .none⟩ (s.next + 2 + arms.size)).stub ∧
      s.Extends (next.layout ⟨s.next + 1, .none⟩ (arms.layout s.next (s.next + 1) s')).2
        ((s.next, role) :: (s.next + 1, role') ::
          (arms.sites (s.next + 2) ++ next.sites (s.next + 2 + arms.size)))
        (⟨q, s.next⟩ :: (arms.wires s.next 0 (s.next + 2) ++
          next.wires ⟨s.next + 1, 0, .none⟩ (s.next + 2 + arms.size))) := by
  have hsize : s'.next = s.next + 2 := hopen.next_eq
  have hbehind : (arms.layout s.next (s.next + 1) s').next = s.next + 2 + arms.size := by
    rw [harms.next_eq, arms.length_sites, hsize]
  obtain ⟨hexit, hrest⟩ := hnext _ (hbehind ▸ Nat.lt_add_right arms.size (Nat.lt_succ_self _))
  rw [hbehind] at hexit hrest
  rw [hsize] at harms
  exact ⟨hexit, (hopen.trans harms).trans hrest⟩

mutual

theorem Row.layout_extends : ∀ (r : Row) (q : Port) (s : Sheet), q.source < s.next →
    (r.layout q.stub s).1 = (r.exit q s.next).stub ∧
      s.Extends (r.layout q.stub s).2 (r.sites s.next) (r.wires q s.next)
  | .done, q, s => fun _ => ⟨rfl, .refl s⟩
  | .task n next, q, s => fun hq => by
    let s' := (s.add (.addTask n.name n.task)).connect q.stub s.next
    have hadd : s.Extends (s.add (.addTask n.name n.task)) [(s.next, .task n.task)] [] := .add rfl
    have hwire := hadd.trans (.connect (Nat.lt_succ_of_lt hq) (Nat.lt_succ_self _))
    obtain ⟨hexit, hnext⟩ := Row.layout_extends next ⟨s.next, 0, none⟩ s' (Nat.lt_succ_self _)
    exact ⟨hexit, hwire.trans hnext⟩
  | .fork arms next, q, s => fun hq => by
    let s' := ((s.addNamed .fork .addFork).addNamed .join .addJoin).connect q.stub s.next
    have hopen : s.Extends s' [(s.next, .fork), (s.next + 1, .join)] [⟨q, s.next⟩] :=
      .openBlock hq (fun _ => rfl) (fun _ => rfl)
    exact Arms.layout_block hopen (Arms.layout_extends arms s.next 0 s' (Nat.lt_succ_self _))
      fun s'' hs => Row.layout_extends next ⟨s.next + 1, 0, none⟩ s'' hs
  | .decision arms next, q, s => fun hq => by
    let s' := ((s.addNamed .decision .addDecision).addNamed .decisionJoin
      .addDecisionJoin).connect q.stub s.next
    have hopen : s.Extends s' [(s.next, .decision), (s.next + 1, .decisionJoin)] [⟨q, s.next⟩] :=
      .openBlock hq (fun _ => rfl) (fun _ => rfl)
    exact Arms.layout_block hopen (Arms.layout_extends arms s.next 0 s' (Nat.lt_succ_self _))
      fun s'' hs => Row.layout_extends next ⟨s.next + 1, 0, none⟩ s'' hs

theorem Arms.layout_extends : ∀ (arms : Arms) (opening k : Nat) (s : Sheet),
    opening + 1 < s.next →
    s.Extends (arms.layout opening (opening + 1) s) (arms.sites s.next)
      (arms.wires opening k s.next)
  | .none, _, _, s => fun _ => .refl s
  | .arm c row more, opening, k, s => fun ho => by
    obtain ⟨hexit, hrow⟩ := Row.layout_extends row ⟨opening, k, c⟩ s (Nat.lt_of_succ_lt ho)
    let s' := (row.layout ⟨opening, c⟩ s).2
    have hsize : s'.next = s.next + row.size := by
      rw [← row.length_sites s.next]
      exact hrow.next_eq
    have hsource : (row.exit ⟨opening, k, c⟩ s.next).source < s'.next :=
      hsize ▸ Row.exit_source_lt (Nat.lt_of_succ_lt ho)
    have htarget : opening + 1 < s'.next := Nat.lt_of_lt_of_le ho (hsize ▸ Nat.le_add_right _ _)
    have hclose : s'.Extends (s'.connect (row.exit ⟨opening, k, c⟩ s.next).stub (opening + 1)) []
        [⟨row.exit ⟨opening, k, c⟩ s.next, opening + 1⟩] := .connect hsource htarget
    have hmore := Arms.layout_extends more opening (k + 1)
      (s'.connect (row.exit ⟨opening, k, c⟩ s.next).stub (opening + 1)) htarget
    have hall := (hrow.trans hclose).trans hmore
    have hlayout : (Arms.arm c row more).layout opening (opening + 1) s = more.layout opening
        (opening + 1) (s'.connect (row.exit ⟨opening, k, c⟩ s.next).stub (opening + 1)) := by
      rw [← hexit]
      rfl
    have hnext : (s'.connect (row.exit ⟨opening, k, c⟩ s.next).stub (opening + 1)).next =
        s.next + row.size := hsize
    rw [hlayout]
    rw [hnext, List.append_nil, List.append_assoc] at hall
    exact hall

end

/-! ## Layouts one after the other -/

/-- A row behind another one is laid out where the latter ends. -/
theorem Row.layout_append : ∀ (r next : Row) (stub : Stub) (s : Sheet),
    (r.append next).layout stub s = next.layout (r.layout stub s).1 (r.layout stub s).2
  | .done, _, _, _ => rfl
  | .task _ behind, next, _, _ => layout_append behind next _ _
  | .fork _ behind, next, _, _ => layout_append behind next _ _
  | .decision _ behind, next, _, _ => layout_append behind next _ _

mutual

/-- Laying out a row only adds edits. -/
theorem Row.edits_prefix_layout : ∀ (r : Row) (stub : Stub) (s : Sheet),
    s.edits <+: (r.layout stub s).2.edits
  | .done, _, _ => List.prefix_refl _
  | .task _ next, _, _ => by
    refine List.IsPrefix.trans ?_ (Row.edits_prefix_layout next _ _)
    simp [Sheet.add, Sheet.connect]
  | .fork arms next, _, _
  | .decision arms next, _, _ => by
    refine List.IsPrefix.trans ?_ (Row.edits_prefix_layout next _ _)
    refine List.IsPrefix.trans ?_ (Arms.edits_prefix_layout arms _ _ _)
    simp [Sheet.addNamed, Sheet.add, Sheet.connect]

theorem Arms.edits_prefix_layout : ∀ (arms : Arms) (opening closing : VertexId) (s : Sheet),
    s.edits <+: (arms.layout opening closing s).edits
  | .none, _, _, _ => List.prefix_refl _
  | .arm _ row more, _, _, s => by
    refine List.IsPrefix.trans ?_ (Arms.edits_prefix_layout more _ _ _)
    exact (Row.edits_prefix_layout row _ s).trans (List.prefix_append _ _)

end
end BatchFlow
