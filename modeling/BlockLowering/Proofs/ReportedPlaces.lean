import BlockLowering.Proofs.FirstFault
import BlockLowering.Proofs.ProgramBodies
import BlockLowering.Proofs.SourcePlaces

/-! The places that faults report. Which node a fault is reported at depends on the tree alone and
not on the places in it; so trees that differ in nothing but places are lowered alike, and where
lowering fails the fault has the place of the same node in each of them. -/

namespace BlockLowering

open Source (Expr Stmt Loc bodyExprs bodyFaults)

/-- The faults are those of the list, in order, each at the place of the node with the given
position. -/
def Sited (nodes : List Expr) (sites : List (Nat × Fault)) (faults : List Fault) : Prop :=
  List.Forall₂ (fun site fault => ∃ node, nodes[site.1]? = some node ∧
    fault = site.2.placed node.loc) sites faults

namespace Sited

variable {nodes more : List Expr} {sites sites' : List (Nat × Fault)} {faults faults' : List Fault}

theorem append_nodes (h : Sited nodes sites faults) (more : List Expr) :
    Sited (nodes ++ more) sites faults := by
  refine List.Forall₂.imp (fun site fault => ?_) h
  rintro ⟨node, hn, hf⟩
  have hlt := (List.getElem?_eq_some_iff.mp hn).1
  exact ⟨node, (List.getElem?_append_left hlt).trans hn, hf⟩

theorem after_nodes (h : Sited nodes sites faults) (front : List Expr) :
    Sited (front ++ nodes) (sites.map fun site => (front.length + site.1, site.2)) faults := by
  refine List.forall₂_map_left_iff.mpr (List.Forall₂.imp (fun site fault => ?_) h)
  rintro ⟨node, hn, hf⟩
  refine ⟨node, ?_, hf⟩
  rwa [List.getElem?_append_right (Nat.le_add_right _ _), Nat.add_sub_cancel_left]

theorem append (h : Sited nodes sites faults) (h' : Sited nodes sites' faults') :
    Sited nodes (sites ++ sites') (faults ++ faults') :=
  List.rel_append h h'

end Sited

/-- Whatever places are put on `x`, it has the same number of nodes, and the same faults at the same
positions among them. -/
def Uniform {α : Type} (unplaced : α → α) (nodes : α → List Expr) (faults : α → List Fault)
    (x : α) : Prop :=
  ∃ count sites, ∀ y, unplaced y = unplaced x →
    (nodes y).length = count ∧ Sited (nodes y) sites (faults y)

theorem Uniform.flatMap {α : Type} {unplaced : α → α} {nodes : α → List Expr}
    {faults : α → List Fault} {xs : List α} (h : ∀ x ∈ xs, Uniform unplaced nodes faults x) :
    Uniform (List.map unplaced) (List.flatMap nodes) (List.flatMap faults) xs := by
  induction xs with
  | nil =>
    refine ⟨0, [], fun ys hys => ?_⟩
    obtain rfl : ys = [] := List.map_eq_nil_iff.mp hys
    exact ⟨rfl, .nil⟩
  | cons x xs ih =>
    rw [List.forall_mem_cons] at h
    obtain ⟨count, sites, hx⟩ := h.1
    obtain ⟨count', sites', hxs⟩ := ih h.2
    refine ⟨count + count', sites ++ sites'.map fun site => (count + site.1, site.2),
      fun ys hys => ?_⟩
    obtain ⟨y, ys', rfl, hy, hys'⟩ := List.map_eq_cons_iff.mp hys
    obtain ⟨hlen, hs⟩ := hx y hy
    obtain ⟨hlen', hs'⟩ := hxs ys' hys'
    simp only [List.flatMap_cons, List.length_append]
    refine ⟨by rw [hlen, hlen'], (hs.append_nodes _).append ?_⟩
    rw [← hlen]
    exact hs'.after_nodes _

namespace Source

variable (layout : Layout)

/-- The node that a fault of the expression itself is reported at. -/
def Expr.blamed : Expr → Expr
  | .methodCall _ receiver _ _ | .field _ receiver _ | .index _ receiver _ => receiver
  | e => e

/-- Its position among the nodes of the expression. -/
def Expr.blamedAt : Expr → Nat
  | .methodCall .. | .field .. | .index .. => 1
  | _ => 0

theorem Expr.getElem?_blamedAt (e : Expr) : e.nodes[e.blamedAt]? = some e.blamed := by
  rw [Expr.nodes_eq]
  cases e with
  | methodCall _ receiver _ args | field _ receiver _ | index _ receiver _ =>
    simp [Expr.blamedAt, Expr.blamed, Expr.operands, Expr.allNodes, Expr.nodes_eq receiver]
  | _ => rfl

theorem Expr.objectFault?_eq (access : Access) (e : Expr) :
    e.objectFault? access = (e.unplaced.objectFault? access).map (Fault.placed e.loc) := by
  unfold Expr.objectFault?
  rw [Expr.ty_unplaced]
  cases e.ty <;> rfl

theorem Expr.listFault?_eq (access : Access) (e : Expr) :
    e.listFault? access = (e.unplaced.listFault? access).map (Fault.placed e.loc) := by
  unfold Expr.listFault?
  rw [Expr.ty_unplaced]
  cases e.ty <;> rfl

theorem classFault?_eq (className : String) (loc : Loc) :
    classFault? layout className loc =
      (classFault? layout className {}).map (Fault.placed loc) := by
  unfold classFault?
  split <;> rfl

theorem Expr.fieldFault?_eq (access : Access) (e : Expr) (field : String) :
    e.fieldFault? layout access field =
      (e.unplaced.fieldFault? layout access field).map (Fault.placed e.loc) := by
  unfold Expr.fieldFault?
  rw [Expr.ty_unplaced]
  cases e.ty with
  | object className =>
    cases hf : layout.fields? className with
    | none => simp only [hf, Option.map_some, Fault.placed]
    | some fields =>
      simp only [hf]
      split <;> rfl
  | _ => rfl

theorem Expr.fault?_eq (e : Expr) :
    e.fault? layout = (e.unplaced.fault? layout).map (Fault.placed e.blamed.loc) := by
  cases e with
  | methodCall note receiver method args => exact receiver.objectFault?_eq _
  | field note receiver name => exact receiver.fieldFault?_eq layout _ _
  | index note receiver index => exact receiver.listFault?_eq _
  | construct note className => exact classFault?_eq layout className note.loc
  | _ => rfl

theorem Expr.blamedAt_unplaced (e : Expr) : e.unplaced.blamedAt = e.blamedAt := by
  cases e <;> rfl

theorem Expr.operands_unplaced (e : Expr) : e.unplaced.operands = e.operands.map Expr.unplaced := by
  cases e <;> simp [Expr.unplaced, Expr.operands, Expr.allUnplaced_eq_map]

theorem Expr.allNodes_eq_flatMap (es : List Expr) : Expr.allNodes es = es.flatMap Expr.nodes := by
  induction es with
  | nil => rfl
  | cons e es ih => rw [Expr.allNodes, ih, List.flatMap_cons]

theorem Expr.allFaults_eq_flatMap (es : List Expr) :
    Expr.allFaults layout es = es.flatMap (Expr.faults layout) := by
  rw [Expr.allFaults, Expr.allNodes_eq_flatMap, List.flatMap_assoc]
  rfl

theorem Expr.uniform (e : Expr) :
    Uniform Expr.unplaced Expr.nodes (Expr.faults layout) e := by
  induction e using Expr.operandInduction with
  | h e ih =>
    obtain ⟨count, sites, hops⟩ := Uniform.flatMap ih
    refine ⟨count + 1, ((e.unplaced.fault? layout).map fun f => (e.blamedAt, f)).toList ++
      sites.map (fun site => (1 + site.1, site.2)), fun y hy => ?_⟩
    have hoperands : y.operands.map Expr.unplaced = e.operands.map Expr.unplaced := by
      rw [← Expr.operands_unplaced, ← Expr.operands_unplaced, hy]
    obtain ⟨hlen, hsited⟩ := hops y.operands hoperands
    have hnodes : y.nodes = [y] ++ y.operands.flatMap Expr.nodes := by
      rw [Expr.nodes_eq, Expr.allNodes_eq_flatMap, List.singleton_append]
    have hfaults : y.faults layout =
        (y.fault? layout).toList ++ y.operands.flatMap (Expr.faults layout) := by
      rw [Expr.faults, Expr.nodes_eq, List.flatMap_cons, ← Expr.allFaults_eq_flatMap]
      rfl
    have hat : e.blamedAt = y.blamedAt := by
      rw [← Expr.blamedAt_unplaced, ← hy, Expr.blamedAt_unplaced]
    refine ⟨by rw [hnodes, List.length_append, hlen]; exact Nat.add_comm _ _, ?_⟩
    rw [hfaults]
    refine Sited.append ?_ ?_
    · rw [y.fault?_eq layout, hy, hat]
      cases e.unplaced.fault? layout with
      | none => exact .nil
      | some f => exact .cons ⟨y.blamed, y.getElem?_blamedAt, rfl⟩ .nil
    · rw [hnodes]
      exact hsited.after_nodes [y]

theorem Stmt.exprs_unplaced (s : Stmt) : s.unplaced.exprs = s.exprs.map Expr.unplaced := by
  cases s <;> rfl

/-- A statement is at fault itself for nothing but its receiver, the first of its nodes. -/
theorem Stmt.fault?_sited (s : Stmt) : Sited (Expr.allNodes s.exprs)
    ((s.unplaced.fault? layout).map fun f => (0, f)).toList (s.fault? layout).toList := by
  have hsited : ∀ (receiver : Expr) (rest : List Expr) (fault : Option Fault),
      Sited (Expr.allNodes (receiver :: rest)) (fault.map fun f => (0, f)).toList
        (fault.map (Fault.placed receiver.loc)).toList := by
    intro receiver rest fault
    cases fault with
    | none => exact .nil
    | some f => exact .cons ⟨receiver, by rw [Expr.allNodes, Expr.nodes_eq]; rfl, rfl⟩ .nil
  cases s with
  | assignField note receiver name value =>
    have h := hsited receiver [value] (receiver.unplaced.fieldFault? layout .fieldAssignment name)
    rwa [← Expr.fieldFault?_eq] at h
  | assignIndex note receiver index value =>
    have h := hsited receiver [index, value] (receiver.unplaced.listFault? .indexAssignment)
    rwa [← Expr.listFault?_eq] at h
  | _ => exact .nil

theorem Stmt.uniform (s : Stmt) :
    Uniform Stmt.unplaced (fun s => Expr.allNodes s.exprs) (Stmt.faults layout) s := by
  obtain ⟨count, sites, hexprs⟩ := Uniform.flatMap fun e (_ : e ∈ s.exprs) => e.uniform layout
  refine ⟨count, ((s.unplaced.fault? layout).map fun f => (0, f)).toList ++ sites, fun y hy => ?_⟩
  have hmap : y.exprs.map Expr.unplaced = s.exprs.map Expr.unplaced := by
    rw [← Stmt.exprs_unplaced, ← Stmt.exprs_unplaced, hy]
  obtain ⟨hlen, hsited⟩ := hexprs y.exprs hmap
  rw [← Expr.allNodes_eq_flatMap] at hlen hsited
  rw [← Expr.allFaults_eq_flatMap] at hsited
  exact ⟨hlen, Sited.append (hy ▸ y.fault?_sited layout) hsited⟩

theorem Stmt.allNodes_unplaced (body : List Stmt) :
    Stmt.allNodes (Stmt.allUnplaced body) = (Stmt.allNodes body).map Stmt.unplaced := by
  induction body using Stmt.bodyInduction with
  | nil => rfl
  | plain stmt rest hp ih =>
    have hp' : stmt.unplaced.isPlain = true := by rwa [Stmt.isPlain_unplaced]
    rw [Stmt.allUnplaced, Stmt.allNodes_plain _ hp', Stmt.allNodes_plain _ hp, ih, List.map_cons]
  | ifElse note cond thenBody elseBody rest iht ihe ih =>
    simp only [Stmt.allUnplaced, Stmt.unplaced, Stmt.allNodes_ifElse, List.map_cons,
      List.map_append, iht, ihe, ih]
  | whileLoop note cond body rest ihb ih =>
    simp only [Stmt.allUnplaced, Stmt.unplaced, Stmt.allNodes_whileLoop, List.map_cons,
      List.map_append, ihb, ih]

theorem uniform_body (body : List Stmt) :
    Uniform Stmt.allUnplaced bodyExprs (bodyFaults layout) body := by
  obtain ⟨count, sites, hstmts⟩ :=
    Uniform.flatMap fun s (_ : s ∈ Stmt.allNodes body) => s.uniform layout
  refine ⟨count, sites, fun y hy => hstmts (Stmt.allNodes y) ?_⟩
  rw [← Stmt.allNodes_unplaced, ← Stmt.allNodes_unplaced, hy]

theorem Program.bodies_unplaced (p : Program) :
    p.unplaced.bodies = p.bodies.map Stmt.allUnplaced := by
  simp only [Program.bodies, Program.unplaced, Class.unplaced, List.map_append, List.map_cons,
    List.map_map, List.map_flatMap, List.flatMap_map]
  rfl

theorem Program.faults_eq_flatMap (p : Program) :
    p.faults layout = p.bodies.flatMap (bodyFaults layout) := by
  simp only [Program.faults, Program.bodies, List.flatMap_append, List.flatMap_cons,
    List.flatMap_map, List.flatMap_assoc]

theorem Program.uniform (p : Program) :
    Uniform Program.unplaced Program.exprs (Program.faults layout) p := by
  obtain ⟨count, sites, hbodies⟩ :=
    Uniform.flatMap fun body (_ : body ∈ p.bodies) => uniform_body layout body
  refine ⟨count, sites, fun y hy => ?_⟩
  rw [Program.faults_eq_flatMap]
  refine hbodies y.bodies ?_
  rw [← Program.bodies_unplaced, ← Program.bodies_unplaced, hy]

end Source

/-- All that is left of a run without places is the same for programs that differ in places only. -/
theorem flattenProgram_unplaced_eq (ctx : Context) {p p' : Source.Program}
    (h : p'.unplaced = p.unplaced) :
    (flattenProgram ctx p').unplaced = (flattenProgram ctx p).unplaced := by
  rw [← flattenProgram_unplaced, ← flattenProgram_unplaced, h]

theorem Fault.loc?_placed {f : Fault} {loc : Loc}
    (h : ∀ complaints, f.placed loc ≠ .invalidCode complaints) :
    (f.placed loc).loc? = some loc := by
  cases f with
  | invalidCode complaints => exact absurd rfl (h complaints)
  | _ => rfl

/-- Programs that differ in nothing but places come out of lowering alike, from any supply of names:
they leave the same supply and the same trail, and either all of them are lowered, to the same
program, or all of them end in the same fault. It is reported at the same node of each, with the
place that this node has there. -/
theorem places_never_change_code (ctx : Context) (p : Source.Program) (names : Names) :
    (∀ p' : Source.Program, p'.unplaced = p.unplaced →
      (flattenProgram ctx p' names).names = (flattenProgram ctx p names).names ∧
      (flattenProgram ctx p' names).trail = (flattenProgram ctx p names).trail) ∧
    ((∃ q, ∀ p' : Source.Program, p'.unplaced = p.unplaced →
      (flattenProgram ctx p' names).result = .ok q) ∨
    ∃ (fault : Fault) (i : Nat), ∀ p' : Source.Program, p'.unplaced = p.unplaced →
      ∃ node, p'.exprs[i]? = some node ∧
        (flattenProgram ctx p' names).result = .error (fault.placed node.loc) ∧
        (fault.placed node.loc).loc? = some node.loc) := by
  refine ⟨fun p' h => ?_, ?_⟩
  · have houtcome := congrFun (flattenProgram_unplaced_eq ctx h) names
    exact ⟨(Outcome.mk.inj houtcome).2.1, (Outcome.mk.inj houtcome).2.2⟩
  obtain ⟨count, sites, hsites⟩ := p.uniform ctx.layout
  have hmeets : ∀ p', Judged (flattenProgram ctx p' names).result (p'.faults ctx.layout).head? :=
    fun p' => meets_flattenProgram p' names
  cases sites with
  | nil =>
    have hnone : ∀ p' : Source.Program, p'.unplaced = p.unplaced → p'.faults ctx.layout = [] := by
      intro p' h
      exact List.forall₂_nil_left_iff.mp (hsites p' h).2
    have hok : ∀ p' : Source.Program, p'.unplaced = p.unplaced →
        ∃ q, (flattenProgram ctx p' names).result = .ok q := by
      intro p' h
      have hjudged := hmeets p'
      rwa [hnone p' h] at hjudged
    obtain ⟨q, hq⟩ := hok p rfl
    refine .inl ⟨q, fun p' h => ?_⟩
    obtain ⟨q', hq'⟩ := hok p' h
    have hresult := congrArg Outcome.result (congrFun (flattenProgram_unplaced_eq ctx h) names)
    simp only [Lower.unplaced, hq, hq', Except.mapError] at hresult
    rw [hq', hresult]
  | cons site rest =>
    refine .inr ⟨site.2, site.1, fun p' h => ?_⟩
    obtain ⟨fault, faults, ⟨node, hnode, rfl⟩, -, hfaults⟩ :=
      List.forall₂_cons_left_iff.mp (hsites p' h).2
    have hresult : (flattenProgram ctx p' names).result = .error (site.2.placed node.loc) := by
      have hjudged := hmeets p'
      rwa [hfaults] at hjudged
    have haccepts : (flattenProgram ctx p').Accepting :=
      (composed_flattenProgram p').accepting fun _ _ => LogStep.accepting
    refine ⟨node, hnode, hresult, Fault.loc?_placed fun complaints hinvalid => ?_⟩
    exact haccepts names complaints (hinvalid ▸ hresult)

/-- A field read on a number, on the given line. -/
def readOfNumber (line : UInt32) : Source.Program where
  body := [.eval ⟨.number, ⟨line, 1, 6⟩⟩
    (.field ⟨.number, ⟨line, 1, 6⟩⟩ (.literal ⟨.number, ⟨line, 1, 1⟩⟩ (.num 7)) "size")]

theorem places_never_change_code_readOfNumber :
    (readOfNumber 9).unplaced = (readOfNumber 2).unplaced ∧
    (flattenProgram ⟨{}, {}⟩ (readOfNumber 9) {}).result =
      .error (.notAnObject .fieldLookup .number ⟨9, 1, 1⟩) ∧
    ((flattenProgram ⟨{}, {}⟩ (readOfNumber 9) {}).names =
        (flattenProgram ⟨{}, {}⟩ (readOfNumber 2) {}).names ∧
      (flattenProgram ⟨{}, {}⟩ (readOfNumber 9) {}).trail =
        (flattenProgram ⟨{}, {}⟩ (readOfNumber 2) {}).trail) :=
  ⟨rfl, rfl, (places_never_change_code ⟨{}, {}⟩ (readOfNumber 2) {}).1 (readOfNumber 9) rfl⟩

end BlockLowering
