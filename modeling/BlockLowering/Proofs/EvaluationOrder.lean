import BlockLowering.Proofs.SourceMeaning

/-! Evaluation when calls assign variables. The memory of a runtime then is a whole state: the
variables of the program and the memory proper. Operands are still evaluated from left to right, but
it matters when a variable that is itself an operand is read: as soon as it is reached, or when
the operation it is an operand of is performed, after its later siblings. The two agree where no
sibling that comes later assigns it. -/

namespace BlockLowering.Source

variable {V H : Type}

/-- When a variable that is an operand is read. -/
inductive Reading where
  | atOnce
  | atUse

/-- An operand that was reached: its value, or a variable that is not read yet. -/
inductive Held (V : Type) where
  | value (v : V)
  | name (x : String)

def Held.read (σ : State V H) : Held V → V
  | value v => v
  | name x => σ.env x

/-- An operand, given how its value is found. -/
def Reading.hold (reading : Reading) (e : Expr) (value : State V H → Option (V × State V H))
    (σ : State V H) : Option (Held V × State V H) :=
  match reading, e.varName? with
  | atUse, some x => some (.name x, σ)
  | _, _ => (value σ).map fun (v, σ) => (.value v, σ)

variable (m : Runtime V (State V H)) (ctx : Context) (reading : Reading)

def fillSlots (object : V) : List Slot → State V H → Option (State V H)
  | [], σ => some σ
  | slot :: rest, σ => do
    let σ ← m.store object (m.word slot.offset) (slot.initial.value m σ.env) σ
    fillSlots object rest σ

def fillHeld (list : V) (offset : Nat) : List (Held V) → State V H → Option (State V H)
  | [], σ => some σ
  | a :: rest, σ => do
    let σ ← m.store list (m.word (UInt32.ofNat offset)) (a.read σ) σ
    fillHeld list (offset + 1) rest σ

/-- A list whose first word holds its length and the others its elements. -/
def fillList (list : V) (as : List (Held V)) (σ : State V H) : Option (V × State V H) := do
  let σ ← m.store list (m.word 0) (m.num as.length) σ
  let σ ← fillHeld m list 1 as σ
  some (list, σ)

/-- A method called on a receiver that passed the check. -/
def callMethod (name : String) (a : Held V) (as : List (Held V)) (σ : State V H) :
    Option (V × State V H) := do
  let (_, σ) ← m.call ctx.settings.notNoneHelper [a.read σ] σ
  m.call name (a.read σ :: as.map (·.read σ)) σ

/-- An element at an index that passed the check. -/
def loadElement (a b : Held V) (σ : State V H) : Option (V × State V H) := do
  let length ← m.load (a.read σ) (m.word 0) σ
  let (_, σ) ← m.call ctx.settings.boundsHelper [length, b.read σ] σ
  let (offset, σ) ← m.binary .plus (b.read σ) (m.word 1) σ
  (m.load (a.read σ) offset σ).map (·, σ)

mutual

/-- The value of an expression and the state afterwards; nothing if it traps. -/
def Expr.evaluate : Expr → State V H → Option (V × State V H)
  | .unary _ op e, σ => do
    let (a, σ) ← reading.hold e e.evaluate σ
    m.unary op (a.read σ) σ
  | .binary _ op l r, σ => do
    let (a, σ) ← reading.hold l l.evaluate σ
    let (b, σ) ← reading.hold r r.evaluate σ
    m.binary op (a.read σ) (b.read σ) σ
  | .builtin1 _ name e, σ => do
    let (a, σ) ← reading.hold e e.evaluate σ
    m.builtin1 name (a.read σ) σ
  | .builtin2 _ name l r, σ => do
    let (a, σ) ← reading.hold l l.evaluate σ
    let (b, σ) ← reading.hold r r.evaluate σ
    m.builtin2 name (a.read σ) (b.read σ) σ
  | .call _ name args, σ => do
    let (as, σ) ← Expr.holdAll args σ
    m.call name (as.map (·.read σ)) σ
  | .methodCall _ receiver method args, σ => do
    let className ← receiver.ty.objectName?
    let (a, σ) ← reading.hold receiver receiver.evaluate σ
    let (as, σ) ← Expr.holdAll args σ
    callMethod m ctx (ctx.settings.methodName className method) a as σ
  | .field _ receiver name, σ => do
    let slot ← fieldSlot? ctx.layout receiver name
    let (a, σ) ← reading.hold receiver receiver.evaluate σ
    (m.load (a.read σ) (m.word slot.offset) σ).map (·, σ)
  | .index _ receiver i, σ => do
    let (a, σ) ← reading.hold receiver receiver.evaluate σ
    let (b, σ) ← reading.hold i i.evaluate σ
    loadElement m ctx a b σ
  | .construct _ className, σ => do
    let fields ← ctx.layout.fields? className
    let (v, σ) ← m.alloc (m.word (UInt32.ofNat fields.size)) σ
    let σ ← fillSlots m v fields.values σ
    let (_, σ) ← m.call (ctx.settings.methodName className ctx.settings.initMethod) [v] σ
    some (v, σ)
  | .listLiteral _ elements, σ => do
    let (v, σ) ← m.alloc (m.word (UInt32.ofNat (elements.length + 1))) σ
    let (as, σ) ← Expr.holdAll elements σ
    fillList m v as σ
  | .var _ name, σ => some (σ.env name, σ)
  | .literal _ value, σ => some ((Flat.Operand.ofLiteral value).value m σ.env, σ)

def Expr.holdAll : List Expr → State V H → Option (List (Held V) × State V H)
  | [], σ => some ([], σ)
  | e :: es, σ => do
    let (a, σ) ← reading.hold e e.evaluate σ
    let (as, σ) ← Expr.holdAll es σ
    some (a :: as, σ)

end

/-- The expression does not assign the variable. -/
def Expr.Spares (e : Expr) (x : String) : Prop :=
  ∀ σ v σ', e.evaluate m ctx .atOnce σ = some (v, σ') → σ'.env x = σ.env x

/-- No variable that is an operand is assigned by a sibling that comes after it. -/
def Expr.Undisturbed (e : Expr) : Prop :=
  ∀ node ∈ e.nodes, node.operands.Pairwise fun earlier later =>
    ∀ x ∈ earlier.varName?, later.Spares m ctx x

/-- Operators, stores and the checks that lowering adds do not assign variables. -/
structure Quiet : Prop where
  binary : ∀ op v w σ u σ', m.binary op v w σ = some (u, σ') → σ'.env = σ.env
  store : ∀ base offset v σ σ', m.store base offset v σ = some σ' → σ'.env = σ.env
  check : ∀ name ∈ [ctx.settings.notNoneHelper, ctx.settings.boundsHelper], ∀ vs σ v σ',
    m.call name vs σ = some (v, σ') → σ'.env = σ.env

variable {m ctx}

def Held.settle (σ : State V H) (a : Held V) : Held V := .value (a.read σ)

theorem Held.read_congr {σ σ' : State V H} (h : σ'.env = σ.env) (a : Held V) :
    a.read σ' = a.read σ := by
  cases a with
  | value v => rfl
  | name x => exact congrFun h x

theorem hold_atUse_composite {e : Expr} (h : e.varName? = none)
    (value : State V H → Option (V × State V H)) (σ : State V H) :
    Reading.atUse.hold e value σ = (value σ).map fun (v, σ) => (.value v, σ) := by
  simp only [Reading.hold, h]

/-- The first way to find something gives what the second does, once that is settled. -/
def Settles {α : Type} (f g : State V H → Option (α × State V H)) (settle : State V H → α → α) :
    Prop :=
  ∀ σ, f σ = (g σ).map fun (a, σ) => (settle σ a, σ)

theorem hold_atUse_read (e : Expr) (σ : State V H) :
    (Reading.atUse.hold e (e.evaluate m ctx .atUse) σ).map (fun (a, σ) => (a.read σ, σ)) =
      e.evaluate m ctx .atUse σ := by
  cases hx : e.varName? with
  | none =>
    rw [hold_atUse_composite hx, Option.map_map]
    exact Option.map_id'
  | some x =>
    cases e with
    | var note name => rfl
    | _ => cases hx

theorem hold_settles {e : Expr}
    (h : ∀ σ, e.evaluate m ctx .atOnce σ = e.evaluate m ctx .atUse σ) :
    Settles (Reading.atOnce.hold e (e.evaluate m ctx .atOnce))
      (Reading.atUse.hold e (e.evaluate m ctx .atUse)) Held.settle := by
  intro σ
  change (e.evaluate m ctx .atOnce σ).map _ = _
  rw [h, ← hold_atUse_read, Option.map_map]
  rfl

variable {α β : Type}

theorem Settles.bind {f g : State V H → Option (α × State V H)} {s : State V H → α → α}
    (h : Settles f g s) (k : α → State V H → Option β) (hk : ∀ a σ, k (s σ a) σ = k a σ)
    (σ : State V H) : ((f σ).bind fun (a, σ) => k a σ) = (g σ).bind fun (a, σ) => k a σ := by
  rw [h σ]
  cases g σ with
  | none => rfl
  | some p => exact hk p.1 p.2

theorem hold_atUse_name {e : Expr} {value : State V H → Option (V × State V H)} {σ σ' : State V H}
    {x : String} (h : Reading.atUse.hold e value σ = some (.name x, σ')) : e.varName? = some x := by
  cases hx : e.varName? with
  | some y =>
    simp only [Reading.hold, hx, Option.some.injEq, Prod.mk.injEq, Held.name.injEq] at h
    rw [h.1]
  | none => simp [Reading.hold, hx] at h

/-- An operand and what is found after it, if that assigns no variable the operand may be. -/
theorem hold_then_settles {e : Expr}
    (he : ∀ σ, e.evaluate m ctx .atOnce σ = e.evaluate m ctx .atUse σ)
    {f g : State V H → Option (α × State V H)} {s : State V H → α → α} (hf : Settles f g s)
    (hg : ∀ x ∈ e.varName?, ∀ σ a σ', g σ = some (a, σ') → σ'.env x = σ.env x)
    (q k : Held V → α → State V H → Option β)
    (hk : ∀ a b σ, q (a.settle σ) (s σ b) σ = k a b σ) (σ : State V H) :
    ((Reading.atOnce.hold e (e.evaluate m ctx .atOnce) σ).bind fun (a, σ) =>
      (f σ).bind fun (b, σ) => q a b σ) =
    (Reading.atUse.hold e (e.evaluate m ctx .atUse) σ).bind fun (a, σ) =>
      (g σ).bind fun (b, σ) => k a b σ := by
  rw [hold_settles he σ]
  cases hσ : Reading.atUse.hold e (e.evaluate m ctx .atUse) σ with
  | none => rfl
  | some p =>
    obtain ⟨a, σ₁⟩ := p
    simp only [Option.map_some, Option.bind_some, hf σ₁]
    cases hσ₁ : g σ₁ with
    | none => rfl
    | some p =>
      obtain ⟨b, σ₂⟩ := p
      have hread : a.settle σ₁ = a.settle σ₂ := by
        cases a with
        | value v => rfl
        | name x => exact congrArg Held.value (hg x (hold_atUse_name hσ) σ₁ b σ₂ hσ₁).symm
      simp only [Option.map_some, Option.bind_some, hread, hk]

theorem hold_spares {e : Expr} (he : ∀ σ, e.evaluate m ctx .atOnce σ = e.evaluate m ctx .atUse σ)
    {x : String} (hs : e.Spares m ctx x) {σ σ' : State V H} {a : Held V}
    (h : Reading.atUse.hold e (e.evaluate m ctx .atUse) σ = some (a, σ')) :
    σ'.env x = σ.env x := by
  have hh := hold_settles he σ
  rw [h] at hh
  obtain ⟨p, hp, hpe⟩ := Option.map_eq_some_iff.mp hh
  obtain rfl : p.2 = σ' := congrArg Prod.snd hpe
  exact hs σ p.1 p.2 hp

theorem holdAll_spares {es : List Expr}
    (he : ∀ e ∈ es, ∀ σ, e.evaluate m ctx .atOnce σ = e.evaluate m ctx .atUse σ) {x : String}
    (hs : ∀ e ∈ es, e.Spares m ctx x) {σ σ' : State V H} {as : List (Held V)}
    (h : Expr.holdAll m ctx .atUse es σ = some (as, σ')) : σ'.env x = σ.env x := by
  induction es generalizing σ as with
  | nil =>
    simp only [Expr.holdAll, Option.some.injEq, Prod.mk.injEq] at h
    rw [h.2]
  | cons e es ih =>
    rw [List.forall_mem_cons] at he hs
    simp only [Expr.holdAll, Option.bind_eq_bind, Option.bind_eq_some_iff] at h
    obtain ⟨⟨a, σ₁⟩, ha, ⟨bs, σ₂⟩, hb, hlast⟩ := h
    obtain rfl : σ₂ = σ' := (Prod.mk.inj (Option.some.inj hlast)).2
    exact (ih he.2 hs.2 hb).trans (hold_spares he.1 hs.1 ha)

theorem holdAll_settles {es : List Expr}
    (he : ∀ e ∈ es, ∀ σ, e.evaluate m ctx .atOnce σ = e.evaluate m ctx .atUse σ)
    (hp : es.Pairwise fun earlier later => ∀ x ∈ earlier.varName?, later.Spares m ctx x) :
    Settles (Expr.holdAll m ctx .atOnce es) (Expr.holdAll m ctx .atUse es)
      (fun σ => List.map (Held.settle σ)) := by
  induction es with
  | nil => exact fun σ => rfl
  | cons e es ih =>
    intro σ
    rw [List.forall_mem_cons] at he
    rw [List.pairwise_cons] at hp
    have hspares : ∀ x ∈ e.varName?, ∀ σ as σ',
        Expr.holdAll m ctx .atUse es σ = some (as, σ') → σ'.env x = σ.env x :=
      fun x hx _ _ _ h => holdAll_spares he.2 (fun later hl => hp.1 later hl x hx) h
    have h := hold_then_settles he.1 (ih he.2 hp.2) hspares (fun a as σ => some (a :: as, σ))
      (fun a as σ => some ((a :: as).map (·.settle σ), σ)) (fun _ _ _ => rfl) σ
    simp only [Expr.holdAll, Option.bind_eq_bind, Option.map_bind, Function.comp_def,
      Option.map_some] at h ⊢
    exact h

theorem fillHeld_settle (hq : Quiet m ctx) (list : V) (offset : Nat) (as : List (Held V))
    {σ σ' : State V H} (hσ : σ'.env = σ.env) :
    fillHeld m list offset (as.map (Held.settle σ)) σ' = fillHeld m list offset as σ' := by
  induction as generalizing offset σ' with
  | nil => rfl
  | cons a as ih =>
    have ha : (a.settle σ).read σ' = a.read σ' := (a.read_congr hσ).symm
    simp only [List.map_cons, fillHeld, ha, Option.bind_eq_bind]
    cases hs : m.store list (m.word (UInt32.ofNat offset)) (a.read σ') σ' with
    | none => rfl
    | some σ₁ => exact ih (offset + 1) ((hq.store _ _ _ _ _ hs).trans hσ)

theorem fillList_settle (hq : Quiet m ctx) (list : V) (as : List (Held V)) (σ : State V H) :
    fillList m list (as.map (Held.settle σ)) σ = fillList m list as σ := by
  simp only [fillList, List.length_map, Option.bind_eq_bind]
  cases hs : m.store list (m.word 0) (m.num as.length) σ with
  | none => rfl
  | some σ₁ =>
    simp only [Option.bind_some, fillHeld_settle hq list 1 as (hq.store _ _ _ _ _ hs)]

theorem callMethod_settle (hq : Quiet m ctx) (name : String) (a : Held V) (as : List (Held V))
    (σ : State V H) :
    callMethod m ctx name (a.settle σ) (as.map (Held.settle σ)) σ =
      callMethod m ctx name a as σ := by
  simp only [callMethod, Option.bind_eq_bind]
  change (m.call ctx.settings.notNoneHelper [a.read σ] σ).bind _ = _
  cases hc : m.call ctx.settings.notNoneHelper [a.read σ] σ with
  | none => rfl
  | some p =>
    obtain ⟨v, σ₁⟩ := p
    have henv := hq.check _ (by simp) _ _ _ _ hc
    have ha : ∀ b : Held V, (b.settle σ).read σ₁ = b.read σ₁ := fun b => (b.read_congr henv).symm
    simp only [Option.bind_some, List.map_map, Function.comp_def, ha]

theorem loadElement_settle (hq : Quiet m ctx) (a b : Held V) (σ : State V H) :
    loadElement m ctx (a.settle σ) (b.settle σ) σ = loadElement m ctx a b σ := by
  simp only [loadElement, Option.bind_eq_bind]
  change (m.load (a.read σ) (m.word 0) σ).bind _ = _
  cases m.load (a.read σ) (m.word 0) σ with
  | none => rfl
  | some length =>
    simp only [Option.bind_some]
    change (m.call ctx.settings.boundsHelper [length, b.read σ] σ).bind _ = _
    cases hc : m.call ctx.settings.boundsHelper [length, b.read σ] σ with
    | none => rfl
    | some p =>
      obtain ⟨v, σ₁⟩ := p
      have henv := hq.check _ (by simp) _ _ _ _ hc
      have hb : (b.settle σ).read σ₁ = b.read σ₁ := (b.read_congr henv).symm
      simp only [Option.bind_some, hb]
      cases hp : m.binary .plus (b.read σ₁) (m.word 1) σ₁ with
      | none => rfl
      | some p =>
        obtain ⟨offset, σ₂⟩ := p
        have ha : (a.settle σ).read σ₂ = a.read σ₂ :=
          (a.read_congr ((hq.binary _ _ _ _ _ _ hp).trans henv)).symm
        simp only [Option.bind_some, ha]

theorem Expr.Undisturbed.operands {e e' : Expr} (h : e.Undisturbed m ctx) (he : e' ∈ e.operands) :
    e'.Undisturbed m ctx := by
  intro node hn
  have hs : e'.nodes ⊆ e.nodes := by
    rw [e.nodes_eq]
    exact List.subset_cons_of_subset _ (Expr.nodes_subset_allNodes he)
  exact h node (hs hn)

theorem Expr.Undisturbed.pairwise {e : Expr} (h : e.Undisturbed m ctx) :
    e.operands.Pairwise fun earlier later => ∀ x ∈ earlier.varName?, later.Spares m ctx x :=
  h e (e.nodes_eq ▸ List.mem_cons_self)

theorem two_settle {l r : Expr} (hl : ∀ σ, l.evaluate m ctx .atOnce σ = l.evaluate m ctx .atUse σ)
    (hr : ∀ σ, r.evaluate m ctx .atOnce σ = r.evaluate m ctx .atUse σ)
    (hp : [l, r].Pairwise fun earlier later => ∀ x ∈ earlier.varName?, later.Spares m ctx x)
    (k : Held V → Held V → State V H → Option β)
    (hk : ∀ a b σ, k (a.settle σ) (b.settle σ) σ = k a b σ) (σ : State V H) :
    ((Reading.atOnce.hold l (l.evaluate m ctx .atOnce) σ).bind fun (a, σ) =>
      (Reading.atOnce.hold r (r.evaluate m ctx .atOnce) σ).bind fun (b, σ) => k a b σ) =
    (Reading.atUse.hold l (l.evaluate m ctx .atUse) σ).bind fun (a, σ) =>
      (Reading.atUse.hold r (r.evaluate m ctx .atUse) σ).bind fun (b, σ) => k a b σ := by
  refine hold_then_settles hl (hold_settles hr) (fun x hx _ _ _ h => ?_) k k hk σ
  exact hold_spares hr (List.rel_of_pairwise_cons hp List.mem_cons_self x hx) h

/-- Where no operand is assigned by a later sibling, it is the same when operands are read. -/
theorem Expr.evaluate_atOnce (hq : Quiet m ctx) {e : Expr} (hu : e.Undisturbed m ctx)
    (σ : State V H) : e.evaluate m ctx .atOnce σ = e.evaluate m ctx .atUse σ := by
  induction e generalizing σ with
  | unary note op arg ih =>
    have harg := ih (hu.operands (by simp [Expr.operands]))
    exact (hold_settles harg).bind (fun a σ => m.unary op (a.read σ) σ) (fun _ _ => rfl) σ
  | binary note op l r ihl ihr =>
    have hl := ihl (hu.operands (by simp [Expr.operands]))
    have hr := ihr (hu.operands (by simp [Expr.operands]))
    exact two_settle hl hr hu.pairwise (fun a b σ => m.binary op (a.read σ) (b.read σ) σ)
      (fun _ _ _ => rfl) σ
  | builtin1 note name arg ih =>
    have harg := ih (hu.operands (by simp [Expr.operands]))
    exact (hold_settles harg).bind (fun a σ => m.builtin1 name (a.read σ) σ) (fun _ _ => rfl) σ
  | builtin2 note name l r ihl ihr =>
    have hl := ihl (hu.operands (by simp [Expr.operands]))
    have hr := ihr (hu.operands (by simp [Expr.operands]))
    exact two_settle hl hr hu.pairwise (fun a b σ => m.builtin2 name (a.read σ) (b.read σ) σ)
      (fun _ _ _ => rfl) σ
  | call note name args ih =>
    have hargs : ∀ e ∈ args, ∀ σ, e.evaluate m ctx .atOnce σ = e.evaluate m ctx .atUse σ :=
      fun e he => ih e he (hu.operands he)
    refine (holdAll_settles hargs hu.pairwise).bind
      (fun as σ => m.call name (as.map (·.read σ)) σ) (fun as σ => ?_) σ
    rw [List.map_map]
    rfl
  | methodCall note receiver method args ihr ih =>
    have hr := ihr (hu.operands List.mem_cons_self)
    have hargs : ∀ e ∈ args, ∀ σ, e.evaluate m ctx .atOnce σ = e.evaluate m ctx .atUse σ :=
      fun e he => ih e he (hu.operands (List.mem_cons_of_mem _ he))
    have hp := List.pairwise_cons.mp hu.pairwise
    simp only [Expr.evaluate]
    refine congrArg (Option.bind _) (funext fun className => ?_)
    refine hold_then_settles hr (holdAll_settles hargs hp.2) (fun x hx _ _ _ h => ?_)
      (callMethod m ctx _) (callMethod m ctx _) (callMethod_settle hq _) σ
    exact holdAll_spares hargs (fun later hl => hp.1 later hl x hx) h
  | field note receiver name ih =>
    have hr := ih (hu.operands (by simp [Expr.operands]))
    simp only [Expr.evaluate]
    refine congrArg (Option.bind _) (funext fun slot => ?_)
    exact (hold_settles hr).bind (fun a σ =>
      (m.load (a.read σ) (m.word slot.offset) σ).map (·, σ)) (fun _ _ => rfl) σ
  | index note receiver index ihr ihi =>
    have hr := ihr (hu.operands (by simp [Expr.operands]))
    have hi := ihi (hu.operands (by simp [Expr.operands]))
    exact two_settle hr hi hu.pairwise (loadElement m ctx) (loadElement_settle hq) σ
  | construct note className => rfl
  | listLiteral note elements ih =>
    have helements : ∀ e ∈ elements, ∀ σ, e.evaluate m ctx .atOnce σ = e.evaluate m ctx .atUse σ :=
      fun e he => ih e he (hu.operands he)
    simp only [Expr.evaluate]
    refine congrArg (Option.bind _) (funext fun r => ?_)
    obtain ⟨v, σ⟩ := r
    exact (holdAll_settles helements hu.pairwise).bind (fillList m v) (fillList_settle hq v) σ
  | var note name => rfl
  | literal note value => rfl

end BlockLowering.Source
