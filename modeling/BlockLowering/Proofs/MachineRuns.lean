import BlockLowering.Proofs.Fragments
import BlockLowering.Proofs.Runtime
import Mathlib.Data.List.Nodup

/-! Runs of the machine on a body that is put together from fragments. The code of a fragment is
run from the place the fragment stands at; control then is after the fragment, at the block that a
jump names, or the run is over. Blocks are found by their labels when no two share one. -/

namespace BlockLowering

open Fragment (ofCode closing Within)

variable {V H : Type} {m : Runtime V H}

namespace Flat

/-- Runs instructions of one block until control leaves them. -/
def follow (m : Runtime V H) : List Instr → State V H → Move V H
  | [], s => .next s
  | i :: rest, s =>
    match i.perform m s with
    | .next t => follow m rest t
    | move => move

theorem follow_append (code more : List Instr) (s : State V H) :
    follow m (code ++ more) s =
      match follow m code s with
      | .next t => follow m more t
      | move => move := by
  induction code generalizing s with
  | nil => rfl
  | cons i rest ih =>
    simp only [List.cons_append, follow]
    cases i.perform m s with
    | next t => exact ih t
    | goto label t => rfl
    | stop e => rfl

/-- Where the machine is after a move, if going on means `onward`. -/
def Move.arrive (blocks : List Block) (onward : State V H → Config V H) : Move V H → Config V H
  | next t => onward t
  | goto label t => enter blocks label t
  | stop e => .ended e

variable {blocks : List Block}

def Reaches (m : Runtime V H) (blocks : List Block) (c c' : Config V H) : Prop :=
  ∃ n, (step m blocks)^[n] c = c'

namespace Reaches

theorem refl (c : Config V H) : Reaches m blocks c c := ⟨0, rfl⟩

theorem single (c : Config V H) : Reaches m blocks c (step m blocks c) := ⟨1, rfl⟩

theorem trans {c₁ c₂ c₃ : Config V H} (h : Reaches m blocks c₁ c₂) (h' : Reaches m blocks c₂ c₃) :
    Reaches m blocks c₁ c₃ := by
  obtain ⟨n, rfl⟩ := h
  obtain ⟨n', rfl⟩ := h'
  exact ⟨n' + n, Function.iterate_add_apply _ _ _ _⟩

end Reaches

/-- The machine still runs after some number of steps that is at least `n`. -/
def Survives (m : Runtime V H) (blocks : List Block) (n : Nat) (c : Config V H) : Prop :=
  ∃ k, n ≤ k ∧ ∃ block index s, (step m blocks)^[k] c = .running block index s

namespace Survives

theorem zero (block index : Nat) (s : State V H) :
    Survives m blocks 0 (.running block index s) :=
  ⟨0, Nat.le_refl 0, block, index, s, rfl⟩

theorem mono {n n' : Nat} {c : Config V H} (h : Survives m blocks n c) (hn : n' ≤ n) :
    Survives m blocks n' c := by
  obtain ⟨k, hk, hr⟩ := h
  exact ⟨k, Nat.le_trans hn hk, hr⟩

theorem of_reaches {n : Nat} {c c' : Config V H} (h : Reaches m blocks c c')
    (hs : Survives m blocks n c') : Survives m blocks n c := by
  obtain ⟨l, rfl⟩ := h
  obtain ⟨k, hk, block, index, s, hr⟩ := hs
  refine ⟨k + l, by omega, block, index, s, ?_⟩
  rw [Function.iterate_add_apply, hr]

theorem of_step {n : Nat} {c : Config V H} (h : Survives m blocks n (step m blocks c)) :
    Survives m blocks (n + 1) c := by
  obtain ⟨k, hk, block, index, s, hr⟩ := h
  exact ⟨k + 1, by omega, block, index, s, by rw [Function.iterate_succ_apply, hr]⟩

end Survives

theorem iterate_ended (e : Ending V H) (n : Nat) :
    (step m blocks)^[n] (.ended e) = .ended e :=
  Function.iterate_fixed rfl n

theorem iterate_lost (n : Nat) : (step m blocks)^[n] (.lost : Config V H) = .lost :=
  Function.iterate_fixed rfl n

theorem running_of_le {n k : Nat} {c : Config V H} {block index : Nat} {s : State V H}
    (hn : n ≤ k) (h : (step m blocks)^[k] c = .running block index s) :
    ∃ block index t, (step m blocks)^[n] c = .running block index t := by
  obtain ⟨d, rfl⟩ := Nat.exists_eq_add_of_le hn
  rw [Nat.add_comm, Function.iterate_add_apply] at h
  cases hc : (step m blocks)^[n] c with
  | running block index t => exact ⟨block, index, t, rfl⟩
  | ended e =>
    rw [hc, iterate_ended] at h
    cases h
  | lost =>
    rw [hc, iterate_lost] at h
    cases h

theorem ended_unique {c : Config V H} {e e' : Ending V H} (h : Reaches m blocks c (.ended e))
    (h' : Reaches m blocks c (.ended e')) : e = e' := by
  obtain ⟨n, hn⟩ := h
  obtain ⟨n', hn'⟩ := h'
  have hl : (step m blocks)^[n' + n] c = .ended e := by
    rw [Function.iterate_add_apply, hn, iterate_ended]
  have hr : (step m blocks)^[n + n'] c = .ended e' := by
    rw [Function.iterate_add_apply, hn', iterate_ended]
  rw [Nat.add_comm, hr] at hl
  cases hl
  rfl

theorem Diverges.not_ends {s : State V H} (h : Diverges m blocks s) (e : Ending V H) :
    ¬ Ends m blocks s e := by
  rintro ⟨n, hn⟩
  obtain ⟨block, index, t, hr⟩ := h n
  rw [hn] at hr
  cases hr

end Flat

open Flat

/-- The machine at the end of a fragment, in a body that starts with `label`. -/
def place (label : String) (front : Fragment) (s : State V H) : Config V H :=
  .running front.blocks.length (front.openAt label).code.length s

variable {label : String} {whole front : Fragment}

theorem place_append_ofCode (code : List Instr) (s : State V H) :
    place label (front ++ ofCode code) s =
      .running front.blocks.length ((front.openAt label).code.length + code.length) s := by
  rw [place, Fragment.openAt_append_ofCode, Fragment.blocks_append_length, List.length_append]
  rfl

theorem step_place {f : Fragment} (hw : Within whole f front) {i : Instr} {rest : List Instr}
    (hf : f.head = i :: rest) (s : State V H) :
    step m (whole.toBlocks label) (place label front s) =
      (i.perform m s).arrive (whole.toBlocks label) (place label (front ++ ofCode [i])) := by
  obtain ⟨back, rfl⟩ := hw
  obtain ⟨more, hm⟩ := f.head_append back
  have hb := Fragment.getElem?_toBlocks_append label front (f ++ back)
  rw [hm, hf, ← Fragment.append_assoc] at hb
  simp only [place, step, hb]
  have hi : ((front.openAt label).code ++ (i :: rest ++ more))[(front.openAt label).code.length]? =
      some i := by simp
  simp only [hi]
  cases i.perform m s with
  | next t => exact (place_append_ofCode [i] t).symm
  | goto next t => rfl
  | stop e => rfl

theorem reaches_follow {code : List Instr} (hw : Within whole (ofCode code) front)
    (s : State V H) :
    Reaches m (whole.toBlocks label) (place label front s)
      ((follow m code s).arrive (whole.toBlocks label) (place label (front ++ ofCode code))) := by
  induction code generalizing front s with
  | nil =>
    have he : front ++ ofCode [] = front := front.append_empty
    rw [he]
    exact Reaches.refl (place label front s)
  | cons i rest ih =>
    have h : Reaches m (whole.toBlocks label) (place label front s) _ := Reaches.single _
    rw [step_place hw rfl] at h
    simp only [follow]
    cases hi : i.perform m s with
    | next t =>
      have hw' : Within whole (ofCode [i] ++ ofCode rest) front := hw
      have hr := ih hw'.split.2 t
      rw [Fragment.append_assoc, Fragment.ofCode_append_ofCode, List.singleton_append] at hr
      rw [hi] at h
      exact h.trans hr
    | goto next t =>
      rw [hi] at h
      exact h
    | stop e =>
      rw [hi] at h
      exact h

theorem enter_closing {code : List Instr} {next : String}
    (hn : ((whole.toBlocks label).map (·.label)).Nodup)
    (hw : Within whole (closing code next) front) (s : State V H) :
    enter (whole.toBlocks label) next s = place label (front ++ closing code next) s := by
  obtain ⟨back, rfl⟩ := hw
  have hb := Fragment.toBlocks_append label (front ++ closing code next) back
  have ho := Fragment.openAt_append_closing label next front code
  rw [ho] at hb
  rw [hb] at hn ⊢
  rw [List.map_append, List.map_cons] at hn
  have hnot : ∀ b ∈ (front ++ closing code next).closed label, b.label ≠ next := by
    intro b hb he
    exact List.disjoint_of_nodup_append hn (List.mem_map.mpr ⟨b, hb, he⟩) List.mem_cons_self
  have hnone : ((front ++ closing code next).closed label).findIdx? (·.label = next) = none := by
    simpa using hnot
  have hsome : ((⟨next, [] ++ back.head⟩ : Block) :: back.blocks).findIdx? (·.label = next) =
      some 0 := by
    simp [List.findIdx?_cons]
  simp only [enter, List.findIdx?_append, hnone, hsome, place, ho, Option.none_or, Option.map_some,
    Fragment.closed_length, Nat.zero_add, List.length_nil]

theorem step_whole (s : State V H) :
    step m (whole.toBlocks label) (place label whole s) = .ended (.finished s) := by
  have hb := Fragment.toBlocks_eq label whole
  have hget : (whole.toBlocks label)[whole.blocks.length]? = some (whole.openAt label) := by
    rw [hb, List.getElem?_append_right (by simp)]
    simp
  have hlen : (whole.toBlocks label).length = whole.blocks.length + 1 := rfl
  simp only [place, step, hget, hlen]
  simp

end BlockLowering
