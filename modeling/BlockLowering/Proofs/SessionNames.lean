import BlockLowering.Proofs.ProgramValidity
import BlockLowering.Session
import Mathlib.Data.List.Perm.Subperm

/-! Names in a session. All requests draw from one supply, and it goes on from request to request, also
from one that ended in a fault and into a renewed context. So no name is given out twice in a
session, and what two replies bring in new names is disjoint. -/

namespace BlockLowering

open Source (Expr Stmt)
open Flat (Operand)

/-- The base that a request names itself. -/
def Request.base? : Request → Option String
  | .fresh base | .body base _ => some base
  | _ => none

/-- The new names that a reply brings: labels and temporaries. A body that is extended comes back
with its old labels too; those are left out. -/
def Reply.newNames : Request → Reply → List String
  | .program source, .program p => p.labels ++ p.temporaries source
  | _, .name fresh => [fresh]
  | _, .flattened x => x.prelude.decls.map (·.name)
  | _, .operand x => x.prelude.decls.map (·.name)
  | _, .body decls blocks => Flat.labelsOf blocks ++ decls.map (·.name)
  | _, .extended (.ok decls) _ => decls.map (·.name)
  | _, _ => []

theorem Reply.newNames_fault (r : Request) (f : Fault) : Reply.newNames r (.fault f) = [] := by
  cases r <;> rfl

namespace Session

/-- The names that the supply gives out while a request is served. -/
def drawnFor (s : Session) : Request → List String
  | .fresh base => drawn (draw base s.names).trail
  | .flatten e => drawn (BlockLowering.flatten s.context e s.names).trail
  | .flattenOperand e => drawn (BlockLowering.flattenOperand s.context e s.names).trail
  | .elementOffset index list =>
    drawn (BlockLowering.elementOffset s.context index list s.names).trail
  | .body entry body => drawn (buildBody s.context entry body s.names).trail
  | .program p => drawn (flattenProgram s.context p s.names).trail
  | .extend body => drawn (buildStmts s.context body s.names).trail
  | _ => []

def after (s : Session) (requests : List Request) : Session :=
  requests.foldl (fun s r => (s.run r).2) s

theorem after_append (s : Session) (earlier later : List Request) :
    s.after (earlier ++ later) = (s.after earlier).after later :=
  List.foldl_append

def drawnBy (s : Session) : List Request → List String
  | [] => []
  | r :: rest => s.drawnFor r ++ (s.run r).2.drawnBy rest

def transcript (s : Session) : List Request → List (Request × Reply)
  | [] => []
  | r :: rest => (r, (s.run r).1) :: (s.run r).2.transcript rest

theorem run_draws (s : Session) {r : Request} (h : ∀ base ∈ r.base?, PlainBase base) :
    Draws s.names (s.run r).2.names (s.drawnFor r) := by
  cases r with
  | fresh base => exact supplied_draw (h base rfl) s.names
  | flatten e => exact (composed_flatten e).supplied (fun _ _ => DrawStep.supplied) s.names
  | flattenOperand e =>
    exact (composed_flattenOperand e).supplied (fun _ _ => DrawStep.supplied) s.names
  | elementOffset index list => exact draws_elementOffset s.names
  | body entry body => exact supplied_buildBody (h entry rfl) body s.names
  | program p => exact (composed_flattenProgram p).supplied (fun _ _ => LogStep.supplied) s.names
  | extend body => exact supplied_buildStmts body s.names
  | last base => exact .refl s.names
  | openBlock label => exact .refl s.names
  | emit code => exact .refl s.names
  | restart label => exact .refl s.names
  | renew settings layout => exact .refl s.names

theorem after_draws (s : Session) {requests : List Request}
    (h : ∀ base ∈ requests.filterMap Request.base?, PlainBase base) :
    Draws s.names (s.after requests).names (s.drawnBy requests) := by
  induction requests generalizing s with
  | nil => exact .refl s.names
  | cons r rest ih =>
    have hr : ∀ base ∈ r.base?, PlainBase base := fun base hb =>
      h base (List.mem_filterMap.mpr ⟨r, List.mem_cons_self, hb⟩)
    have hrest : ∀ base ∈ rest.filterMap Request.base?, PlainBase base := fun base hb =>
      h base (List.filterMap_subset _ (List.subset_cons_self r rest) hb)
    exact (s.run_draws hr).trans (ih (s.run r).2 hrest)

theorem answer_newNames {ω α : Type} [EmptyCollection ω] [Append ω] [Naming ω] {m : Lower ω α}
    {reply : α → Reply} {r : Request} (s : Session)
    (h : ∀ {a b x t}, m.Yields a x b t → (Reply.newNames r (reply x)).Subperm (drawn t)) :
    (Reply.newNames r (s.answer m reply).1).Subperm (drawn (m s.names).trail) := by
  cases hm : (m s.names).result with
  | error f =>
    simp only [answer, hm, Reply.newNames_fault]
    exact List.nil_subperm
  | ok x =>
    simp only [answer, hm]
    exact h (Lower.yields_of_result hm)

theorem run_newNames (s : Session) (r : Request) :
    (Reply.newNames r (s.run r).1).Subperm (s.drawnFor r) := by
  cases r with
  | fresh base => exact List.Subperm.refl _
  | flatten e =>
    refine s.answer_newNames fun hy => ?_
    exact (flatten_flattens hy).declares.decls ▸ List.Subperm.refl _
  | flattenOperand e =>
    refine s.answer_newNames fun hy => ?_
    exact (flattenOperand_flattens hy).declares.decls ▸ List.Subperm.refl _
  | elementOffset index list => exact List.Subperm.refl _
  | body entry body =>
    refine s.answer_newNames fun {_ _ x _} hy => ?_
    obtain ⟨f, t, hb, he, ht⟩ := @buildBody_builds _ _ _ x.1 x.2 _ _ _ hy
    rw [ht]
    change (Flat.labelsOf x.2 ++ _).Subperm _
    rw [he]
    exact (hb.names_perm.cons _).subperm
  | program p => exact s.answer_newNames fun hy => (flattenProgram_yields hy).2.subperm
  | extend body =>
    change (Reply.newNames _ (Reply.extended (buildStmts s.context body s.names).result _)).Subperm _
    cases hm : (buildStmts s.context body s.names).result with
    | error f => exact List.nil_subperm
    | ok ds =>
      have hb := buildStmts_builds (Lower.yields_of_result hm)
      exact (List.sublist_append_right _ _).subperm.trans hb.names_perm.subperm
  | last base => exact List.nil_subperm
  | openBlock label => exact List.nil_subperm
  | emit code => exact List.nil_subperm
  | restart label => exact List.nil_subperm
  | renew settings layout => exact List.nil_subperm

theorem transcript_newNames (s : Session) (requests : List Request) :
    ((s.transcript requests).flatMap fun x => Reply.newNames x.1 x.2).Subperm
      (s.drawnBy requests) := by
  induction requests generalizing s with
  | nil => exact List.Subperm.refl _
  | cons r rest ih => exact (s.run_newNames r).append (ih (s.run r).2)

end Session

/-- The names that a session takes from its supply are never repeated, nor among those used up when
it began, and no counter goes back; so the new names in the replies to any two requests differ,
whether these bring names, bodies or programs. -/
theorem session_names_distinct (s : Session) {requests : List Request}
    (h : ∀ base ∈ requests.filterMap Request.base?, PlainBase base) :
    Draws s.names (s.after requests).names (s.drawnBy requests) ∧
    (s.drawnBy requests).Nodup ∧
    (∀ base k, PlainBase base → k ≤ s.names.count base →
      base ++ toString k ∉ s.drawnBy requests) ∧
    (∀ earlier later, requests = earlier ++ later →
      (s.after earlier).names.NoBehind (s.after requests).names) ∧
    (∀ x ∈ s.transcript requests, Reply.newNames x.1 x.2 ⊆ s.drawnBy requests) ∧
    (s.transcript requests).Pairwise fun x y =>
      (Reply.newNames x.1 x.2).Disjoint (Reply.newNames y.1 y.2) := by
  have hd := s.after_draws h
  have hs := s.transcript_newNames requests
  refine ⟨hd, hd.nodup, fun base k hb hk hm => ?_, fun earlier later he => ?_, fun x hx => ?_, ?_⟩
  · exact hd.unused _ hm ⟨base, k, hb, hk, rfl⟩
  · subst he
    rw [s.after_append]
    refine ((s.after earlier).after_draws fun base hb => ?_).noBehind
    exact h base (List.filterMap_subset _ (List.subset_append_right earlier later) hb)
  · exact fun name hn => hs.subset (List.mem_flatMap.mpr ⟨x, hx, hn⟩)
  · obtain ⟨names, hperm, hsub⟩ := hs
    have hn := hperm.nodup_iff.mp (hsub.nodup hd.nodup)
    exact (List.nodup_flatMap.mp hn).2

/-- Lowers a program twice, with a fault and a change of context in between. -/
def Request.twice : List Request :=
  let number : Source.Note := ⟨.number, {}⟩
  let negated : Expr := .unary number .neg (.var number "x")
  let program : Source.Program := ⟨[], [], [], [.ret number negated]⟩
  [.program program, .flatten (.binary number .plus negated (.field number negated "f")),
    .renew (some {}) none, .program program, .fresh "valname"]

theorem session_names_distinct_twice :
    (∀ base ∈ Request.twice.filterMap Request.base?, PlainBase base) ∧
    let s : Session := { names := .ofCounters [("valname", 4)] }
    s.drawnBy Request.twice =
      ["$startProg1", "valname5", "valname6", "$startProg2", "valname7", "valname8"] ∧
    (s.drawnBy Request.twice).Nodup ∧ "valname" ++ toString 4 ∉ s.drawnBy Request.twice ∧
    (s.transcript Request.twice).Pairwise fun x y =>
      (Reply.newNames x.1 x.2).Disjoint (Reply.newNames y.1 y.2) := by
  have h : ∀ base ∈ Request.twice.filterMap Request.base?, PlainBase base := by decide
  have hs := session_names_distinct { names := .ofCounters [("valname", 4)] } h
  exact ⟨h, by decide, hs.2.1, hs.2.2.1 "valname" 4 (by decide) (by decide), hs.2.2.2.2.2⟩

end BlockLowering
