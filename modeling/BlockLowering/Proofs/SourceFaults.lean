import BlockLowering.Proofs.NeededNames

/-! The faults of a source tree, in the order of one walk over it in which a node comes before its
operands. The same walk comes past the names that lowering draws, and the two together say where
it stops and what it has drawn by then. -/

namespace BlockLowering

namespace Source

variable (layout : Layout)

def Expr.objectFault? (access : Access) (receiver : Expr) : Option Fault :=
  match receiver.ty with
  | .object _ => none
  | found => some (.notAnObject access found receiver.loc)

def Expr.listFault? (access : Access) (receiver : Expr) : Option Fault :=
  match receiver.ty with
  | .list _ => none
  | found => some (.notAList access found receiver.loc)

def classFault? (className : String) (loc : Loc) : Option Fault :=
  if (layout.fields? className).isSome then none else some (.unknownClass className loc)

def Expr.fieldFault? (access : Access) (receiver : Expr) (field : String) : Option Fault :=
  match receiver.ty with
  | .object className =>
    match layout.fields? className with
    | some fields =>
      if (fields.get? field).isSome then none
      else some (.unknownField className field receiver.loc)
    | none => some (.unknownClass className receiver.loc)
  | found => some (.notAnObject access found receiver.loc)

/-- What is wrong with an expression itself, whatever its operands are. -/
def Expr.fault? : Expr → Option Fault
  | .methodCall _ receiver _ _ => receiver.objectFault? .methodCall
  | .field _ receiver name => receiver.fieldFault? layout .fieldLookup name
  | .index _ receiver _ => receiver.listFault? .index
  | .construct note className => classFault? layout className note.loc
  | _ => none

/-- What is wrong with a statement itself. -/
def Stmt.fault? : Stmt → Option Fault
  | .assignField _ receiver name _ => receiver.fieldFault? layout .fieldAssignment name
  | .assignIndex _ receiver _ _ => receiver.listFault? .indexAssignment
  | _ => none

/-- The faults of a tree, each node before what is inside it. -/
def Expr.faults (e : Expr) : List Fault := e.nodes.flatMap fun node => (node.fault? layout).toList

def Expr.allFaults (es : List Expr) : List Fault :=
  (Expr.allNodes es).flatMap fun node => (node.fault? layout).toList

def Stmt.faults (s : Stmt) : List Fault :=
  (s.fault? layout).toList ++ Expr.allFaults layout s.exprs

def bodyFaults (body : List Stmt) : List Fault := (Stmt.allNodes body).flatMap (Stmt.faults layout)

/-- The faults of the top level, of the functions, and of the methods class by class. -/
def Program.faults (p : Program) : List Fault :=
  bodyFaults layout p.body ++ p.functions.flatMap (fun f => bodyFaults layout f.body) ++
    p.classes.flatMap fun c => c.methods.flatMap fun f => bodyFaults layout f.body

theorem Expr.faults_eq (e : Expr) :
    e.faults layout = (e.fault? layout).toList ++ Expr.allFaults layout e.operands := by
  rw [Expr.faults, e.nodes_eq]
  exact List.flatMap_cons

theorem Expr.allFaults_cons (e : Expr) (es : List Expr) :
    Expr.allFaults layout (e :: es) = e.faults layout ++ Expr.allFaults layout es :=
  List.flatMap_append

theorem Expr.allFaults_singleton (e : Expr) : Expr.allFaults layout [e] = e.faults layout := by
  rw [Expr.allFaults_cons]
  exact List.append_nil _

section

variable (note : Note) (cond : Expr) (body thenBody elseBody rest : List Stmt)

theorem bodyFaults_plain {stmt : Stmt} (h : stmt.isPlain = true) :
    bodyFaults layout (stmt :: rest) = stmt.faults layout ++ bodyFaults layout rest := by
  cases stmt with
  | ifElse note cond thenBody elseBody => cases h
  | whileLoop note cond body => cases h
  | _ => rfl

theorem bodyFaults_ifElse : bodyFaults layout (.ifElse note cond thenBody elseBody :: rest) =
    cond.faults layout ++ (bodyFaults layout thenBody ++ bodyFaults layout elseBody) ++
      bodyFaults layout rest := by
  have hcond : (Stmt.ifElse note cond thenBody elseBody).faults layout = cond.faults layout :=
    Expr.allFaults_singleton layout cond
  simp only [bodyFaults, Stmt.allNodes, Stmt.nodes, List.cons_append, List.flatMap_cons,
    List.flatMap_append, hcond, List.append_assoc]

theorem bodyFaults_whileLoop : bodyFaults layout (.whileLoop note cond body :: rest) =
    cond.faults layout ++ bodyFaults layout body ++ bodyFaults layout rest := by
  have hcond : (Stmt.whileLoop note cond body).faults layout = cond.faults layout :=
    Expr.allFaults_singleton layout cond
  simp only [bodyFaults, Stmt.allNodes, Stmt.nodes, List.cons_append, List.flatMap_cons,
    List.flatMap_append, hcond, List.append_assoc]

end

end Source

/-- What a walk over a source tree comes to: a name to draw, or a fault. -/
inductive WalkStop where
  | need (n : Need)
  | fault (f : Fault)

def WalkStop.fault? : WalkStop → Option Fault
  | need _ => none
  | fault f => some f

def faultsOf (stops : List WalkStop) : List Fault := stops.filterMap WalkStop.fault?

theorem faultsOf_append (stops more : List WalkStop) :
    faultsOf (stops ++ more) = faultsOf stops ++ faultsOf more :=
  List.filterMap_append

theorem faultsOf_needs (ns : List Need) : faultsOf (ns.map .need) = [] := by
  induction ns with
  | nil => rfl
  | cons n ns ih => exact ih

theorem faultsOf_fault (fault : Option Fault) :
    faultsOf (fault.toList.map .fault) = fault.toList := by
  cases fault <;> rfl

namespace Source

variable (layout : Layout)

mutual

/-- The stops in an expression. A node is checked before its operands, and its own names are drawn
after them, except that a list is named first. -/
def Expr.stops (e : Expr) : List WalkStop :=
  (e.fault? layout).toList.map .fault ++
  match e with
  | .unary _ _ arg | .builtin1 _ _ arg | .field _ arg _ => arg.stops ++ arg.holder.map .need
  | .binary _ _ l r | .builtin2 _ _ l r =>
    l.stops ++ l.holder.map .need ++ (r.stops ++ r.holder.map .need)
  | .index _ l r =>
    l.stops ++ l.holder.map .need ++ (r.stops ++ r.holder.map .need) ++ e.ownNeeds.map .need
  | .call _ _ args => Expr.allStops args
  | .methodCall _ receiver _ args =>
    receiver.stops ++ receiver.holder.map .need ++ Expr.allStops args
  | .listLiteral _ elements => e.ownNeeds.map .need ++ Expr.allStops elements
  | .construct .. | .var .. | .literal .. => e.ownNeeds.map .need

def Expr.allStops : List Expr → List WalkStop
  | [] => []
  | e :: es => e.stops ++ e.holder.map .need ++ Expr.allStops es

end

def Expr.operandStops (e : Expr) : List WalkStop := e.stops layout ++ e.holder.map .need

mutual

def Stmt.stops (stmt : Stmt) : List WalkStop :=
  match stmt with
  | .assign _ _ e | .eval _ e => e.stops layout
  | .ret _ e => e.operandStops layout
  | .pass _ => []
  | .assignField _ receiver _ value => (stmt.fault? layout).toList.map .fault ++
    (receiver.operandStops layout ++ value.operandStops layout)
  | .assignIndex _ receiver index value => (stmt.fault? layout).toList.map .fault ++
    (receiver.operandStops layout ++ (index.operandStops layout ++
      (value.operandStops layout ++ stmt.ownNeeds.map .need)))
  | .ifElse _ cond thenBody elseBody =>
    stmt.ownNeeds.map .need ++
      (cond.operandStops layout ++ (bodyStops thenBody ++ bodyStops elseBody))
  | .whileLoop _ cond body =>
    stmt.ownNeeds.map .need ++ (cond.operandStops layout ++ bodyStops body)

def bodyStops : List Stmt → List WalkStop
  | [] => []
  | stmt :: rest => stmt.stops ++ bodyStops rest

end

/-- The stops in a body whose first block has a label of the given base. -/
def entryStops (entry : String) (body : List Stmt) : List WalkStop :=
  .need (.label entry) :: bodyStops layout body

/-- The stops at the top level, in the functions, and in the methods class by class. -/
def Program.stops (p : Program) : List WalkStop :=
  entryStops layout Base.programStart p.body ++
    (p.functions.flatMap (fun f => entryStops layout Base.functionStart f.body) ++
    p.classes.flatMap fun c =>
      c.methods.flatMap fun f => entryStops layout Base.functionStart f.body)

theorem Expr.faultsOf_allStops_of {es : List Expr}
    (h : ∀ e ∈ es, faultsOf (e.stops layout) = e.faults layout) :
    faultsOf (Expr.allStops layout es) = Expr.allFaults layout es := by
  induction es with
  | nil => rfl
  | cons e es ih =>
    rw [List.forall_mem_cons] at h
    simp only [Expr.allStops, Expr.allFaults_cons, faultsOf_append, faultsOf_needs,
      List.append_nil, h.1, ih h.2]

/-- A node is checked before its operands, and its own names are no faults. -/
theorem Expr.faultsOf_stops_node (e : Expr) : faultsOf (e.stops layout) =
    (e.fault? layout).toList ++ faultsOf (Expr.allStops layout e.operands) := by
  have hnil : faultsOf [] = [] := rfl
  cases e with
  | _ => simp only [Expr.stops, Expr.operands, Expr.allStops, faultsOf_append, faultsOf_fault,
      faultsOf_needs, hnil, List.append_nil, List.nil_append]

/-- Without the names, the stops are the faults. -/
theorem Expr.faultsOf_stops (e : Expr) : faultsOf (e.stops layout) = e.faults layout := by
  induction e using Expr.operandInduction with
  | h e ih => rw [e.faultsOf_stops_node, Expr.faultsOf_allStops_of layout ih, e.faults_eq]

theorem Expr.faultsOf_operandStops (e : Expr) :
    faultsOf (e.operandStops layout) = e.faults layout := by
  rw [Expr.operandStops, faultsOf_append, faultsOf_needs, List.append_nil, e.faultsOf_stops]

theorem Stmt.faultsOf_stops {stmt : Stmt} (h : stmt.isPlain = true) :
    faultsOf (stmt.stops layout) = stmt.faults layout := by
  have hone := fun e => Expr.allFaults_singleton layout e
  cases stmt with
  | assign _ _ e | eval _ e =>
    rw [Stmt.stops, e.faultsOf_stops, Stmt.faults, Stmt.exprs, hone]
    rfl
  | ret _ e =>
    rw [Stmt.stops, e.faultsOf_operandStops, Stmt.faults, Stmt.exprs, hone]
    rfl
  | pass => rfl
  | assignField =>
    simp only [Stmt.stops, faultsOf_append, faultsOf_fault, Expr.faultsOf_operandStops,
      Stmt.faults, Stmt.exprs, Expr.allFaults_cons, hone]
  | assignIndex =>
    simp only [Stmt.stops, faultsOf_append, faultsOf_fault, faultsOf_needs, List.append_nil,
      Expr.faultsOf_operandStops, Stmt.faults, Stmt.exprs, Expr.allFaults_cons, hone]
  | ifElse | whileLoop => cases h

theorem faultsOf_bodyStops (body : List Stmt) :
    faultsOf (bodyStops layout body) = bodyFaults layout body := by
  induction body using Stmt.bodyInduction with
  | nil => rfl
  | plain stmt rest hp ih =>
    rw [bodyStops, faultsOf_append, Stmt.faultsOf_stops layout hp, ih, bodyFaults_plain _ _ hp]
  | ifElse note cond thenBody elseBody rest iht ihe ih =>
    simp only [bodyStops, Stmt.stops, faultsOf_append, faultsOf_needs, cond.faultsOf_operandStops,
      iht, ihe, ih, bodyFaults_ifElse]
    rfl
  | whileLoop note cond body rest ihb ih =>
    simp only [bodyStops, Stmt.stops, faultsOf_append, faultsOf_needs, cond.faultsOf_operandStops,
      ihb, ih, bodyFaults_whileLoop]
    rfl

theorem faultsOf_entryStops (entry : String) (body : List Stmt) :
    faultsOf (entryStops layout entry body) = bodyFaults layout body :=
  faultsOf_bodyStops layout body

theorem Program.faultsOf_stops (p : Program) : faultsOf (p.stops layout) = p.faults layout := by
  have hflat : ∀ (fs : List Function),
      faultsOf (fs.flatMap fun f => entryStops layout Base.functionStart f.body) =
        fs.flatMap fun f => bodyFaults layout f.body := by
    intro fs
    simp only [faultsOf, List.filterMap_flatMap]
    exact List.flatMap_congr fun f _ => faultsOf_entryStops layout _ f.body
  have hclasses : faultsOf (p.classes.flatMap fun c =>
      c.methods.flatMap fun f => entryStops layout Base.functionStart f.body) =
        p.classes.flatMap fun c => c.methods.flatMap fun f => bodyFaults layout f.body := by
    rw [faultsOf, List.filterMap_flatMap]
    exact List.flatMap_congr fun c _ => hflat c.methods
  rw [Program.stops, faultsOf_append, faultsOf_append, faultsOf_entryStops, hflat, hclasses,
    Program.faults, List.append_assoc]

end Source

end BlockLowering
