import BlockLowering.Proofs.StatementTranslation

/-! Names in lowered bodies. The names drawn for a body are the labels of its blocks and the names
it declares, none of them twice; the declared ones are temporaries. -/

namespace BlockLowering

open Source (Expr Stmt)
open Flat (Operand Rhs Instr Decl Block)

variable {ctx : Context}

theorem FlattensStmt.draws {a b : Names} {stmt : Stmt} {p : Prelude} {t : List String}
    (h : FlattensStmt ctx a stmt p b t) : Draws a b t := by
  cases h with
  | assign h | eval h => exact h.draws
  | ret h => exact h.draws
  | pass => exact .refl _
  | assignField _ hx hy => exact hx.draws.trans hy.draws
  | assignIndex hx hi hy =>
    exact ((hx.draws.trans hi.draws).trans hy.draws).trans (draws_elementOffset _)

theorem FlattensStmt.temporaries {a b : Names} {stmt : Stmt} {p : Prelude} {t : List String}
    (h : FlattensStmt ctx a stmt p b t) : ∀ name ∈ t, IsTemporary name := by
  cases h with
  | assign h | eval h => exact h.temporaries
  | ret h => exact h.temporaries
  | pass => simp
  | assignField _ hx hy => exact List.forall_mem_append.mpr ⟨hx.temporaries, hy.temporaries⟩
  | assignIndex hx hi hy =>
    simp only [List.forall_mem_append]
    exact ⟨⟨⟨hx.temporaries, hi.temporaries⟩, hy.temporaries⟩, temporaries_elementOffset _⟩

theorem FlattensStmt.decls {a b : Names} {stmt : Stmt} {p : Prelude} {t : List String}
    (h : FlattensStmt ctx a stmt p b t) : p.decls.map (·.name) = t := by
  cases h with
  | assign h | eval h => simpa [Prelude.append_decls, Prelude.ofCode] using h.declares.decls
  | ret h => simpa [Prelude.append_decls, Prelude.ofCode] using h.declares.decls
  | pass => rfl
  | assignField _ hx hy =>
    simpa [Prelude.append_decls, Prelude.ofCode] using (hx.declares.append hy.declares).decls
  | assignIndex hx hi hy =>
    simpa [Prelude.append_decls, Prelude.ofCode] using
      (((hx.declares.append hi.declares).append hy.declares).append
        (.guardedOffset ctx _ _ _ _)).decls

theorem Names.draws_labels (names : Names) {first second third : String} (h₁ : PlainBase first)
    (h₂ : PlainBase second) (h₃ : PlainBase third) :
    Draws names (names.labels first second third).after
      [(names.labels first second third).first, (names.labels first second third).second,
        (names.labels first second third).third] :=
  ((Draws.advance names h₁).trans (Draws.advance _ h₂)).trans (Draws.advance _ h₃)

theorem Builds.draws {a b : Names} {body : List Stmt} {ds : List Decl} {f : Fragment}
    {t : List String} (h : Builds ctx a body ds f b t) : Draws a b t := by
  induction h with
  | nil => exact .refl _
  | plain hs _ ih => exact hs.draws.trans ih
  | @ifElse a _ _ _ _ _ _ _ _ _ _ _ _ _ l _ _ _ _ _ _ _ hl hx _ _ _ iht ihe ih =>
    have hd : Draws a l.after [l.first, l.second, l.third] :=
      hl ▸ a.draws_labels (by decide) (by decide) (by decide)
    exact (((hd.trans hx.draws).trans iht).trans ihe).trans ih
  | @whileLoop a _ _ _ _ _ _ _ _ _ _ l _ _ _ _ _ hl hx _ _ ihb ih =>
    have hd : Draws a l.after [l.first, l.second, l.third] :=
      hl ▸ a.draws_labels (by decide) (by decide) (by decide)
    exact ((hd.trans hx.draws).trans ihb).trans ih

theorem Builds.temporaries {a b : Names} {body : List Stmt} {ds : List Decl} {f : Fragment}
    {t : List String} (h : Builds ctx a body ds f b t) :
    ∀ name ∈ ds.map (·.name), IsTemporary name := by
  induction h with
  | nil => simp
  | plain hs _ ih =>
    simp only [List.map_append, List.forall_mem_append, hs.decls]
    exact ⟨hs.temporaries, ih⟩
  | ifElse _ hx _ _ _ iht ihe ih =>
    simp only [List.map_append, List.forall_mem_append, hx.declares.decls]
    exact ⟨⟨⟨hx.temporaries, iht⟩, ihe⟩, ih⟩
  | whileLoop _ hx _ _ ihb ih =>
    simp only [List.map_append, List.forall_mem_append, hx.declares.decls]
    exact ⟨⟨hx.temporaries, ihb⟩, ih⟩

/-- Each name drawn is either the label of a block or declared, and not both. -/
theorem Builds.names_perm {a b : Names} {body : List Stmt} {ds : List Decl} {f : Fragment}
    {t : List String} (h : Builds ctx a body ds f b t) :
    (f.labels ++ ds.map (·.name)).Perm t := by
  simp only [List.perm_iff_count, List.count_append]
  intro name
  induction h with
  | nil => rfl
  | plain hs _ ih =>
    simp only [Fragment.labels_append, Fragment.labels_ofCode, List.map_append, hs.decls,
      List.count_append, List.count_nil]
    omega
  | ifElse _ hx _ _ _ iht ihe ih =>
    simp only [Fragment.labels_append, Fragment.labels_closing, List.map_append,
      hx.declares.decls, List.count_append, List.count_cons, List.count_nil]
    omega
  | whileLoop _ hx _ _ ihb ih =>
    simp only [Fragment.labels_append, Fragment.labels_closing, List.map_append,
      hx.declares.decls, List.count_append, List.count_cons, List.count_nil]
    omega

instance : Naming (List Step) where
  drawn steps := steps.filterMap Step.name?
  drawn_empty := rfl
  drawn_append _ _ := List.filterMap_append

theorem buildBody_builds {entry : String} {body : List Stmt} {ds : List Decl}
    {blocks : List Block} {a b : Names} {steps : List Step}
    (h : (buildBody ctx entry body).Yields a (ds, blocks) b steps) :
    ∃ f t, Builds ctx (a.advance entry) body ds f b t ∧ blocks = f.toBlocks (a.fresh entry) ∧
      drawn steps = a.fresh entry :: t := by
  rcases ho : buildStmts ctx body (a.advance entry) with ⟨r, after, u⟩
  simp only [Lower.Yields, buildBody, ho, Outcome.mk.injEq] at h
  obtain ⟨hr, rfl, rfl⟩ := h
  cases r with
  | error fault => cases hr
  | ok decls =>
    cases hr
    exact ⟨u.code, drawn u, buildStmts_builds ho, rfl, rfl⟩

theorem Builds.labels_nodup {entry : String} (he : PlainBase entry) {a b : Names}
    {body : List Stmt} {ds : List Decl} {f : Fragment} {t : List String}
    (h : Builds ctx (a.advance entry) body ds f b t) :
    ((f.toBlocks (a.fresh entry)).map (·.label)).Nodup := by
  have hd := ((Draws.advance a he).trans h.draws).nodup
  have hp : (a.fresh entry :: (f.labels ++ ds.map (·.name))).Perm (a.fresh entry :: t) :=
    h.names_perm.cons _
  have hn := hp.nodup_iff.mpr hd
  rw [← List.cons_append] at hn
  exact hn.of_append_left

end BlockLowering
