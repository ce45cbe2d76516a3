import PIConGPU.FillGaps

/-!
# KernelDeleteParticles

A block deletes the particles of the last frame of its supercell, removes the frame, and goes on until there is no frame
left. This is done with the guard in directions without neighbor.
-/
namespace PIConGPU.KernelDeleteParticles

open ParticlesBox

variable {D T : ℕ} {α : Type*}

def loop (superCellIdx : DataSpace D) : ℕ → Option Ptr → ParticlesBox D T α → Option (ParticlesBox D T α)
  | _, none, box => some (box.setSizeLastFrame superCellIdx 0)
  | 0, some _, _ => none
  | n + 1, some frame, box =>
    let next := (box.deleteParticles frame fun _ => True).getPreviousFrameAndRemoveLastFrame frame superCellIdx
    loop superCellIdx n next.1 next.2

def block (box : ParticlesBox D T α) (superCellIdx : DataSpace D) : Option (ParticlesBox D T α) :=
  loop superCellIdx box.allocated.card (box.lastFramePtr superCellIdx) box

def run (blocks : List (DataSpace D)) (box : ParticlesBox D T α) : Option (ParticlesBox D T α) :=
  blocks.foldlM block box

section Block

variable {box box' : ParticlesBox D T α} {L L' : DataSpace D → List Ptr} {c : DataSpace D} {cells : Set (DataSpace D)}

/-- Some supercells are empty, and the other ones are as they were. -/
structure Deleted (cells : Set (DataSpace D)) (box : ParticlesBox D T α) (L : DataSpace D → List Ptr)
    (box' : ParticlesBox D T α) (L' : DataSpace D → List Ptr) : Prop where
  linked : Linked box' L'
  emptied : ∀ c ∈ cells, L' c = []
  others : ∀ c ∉ cells, L' c = L c ∧
    ∀ p ∈ L c, box'.multiMask p = box.multiMask p ∧ box'.attributes p = box.attributes p

theorem Deleted.contents_eq (h : Deleted cells box L box' L') (hc : c ∉ cells) (m : ℕ) :
    box'.contents (L' c) m = box.contents (L c) m := by
  obtain ⟨hlist, hframes⟩ := h.others c hc
  rw [hlist]
  exact contents_congr (fun p hp => (hframes p hp).1) fun p hp => (hframes p hp).2

theorem loop_spec (hL : Linked box L) {n : ℕ} (hn : (L c).length ≤ n) :
    ∃ box' L', loop c n (L c).getLast? box = some box' ∧ Deleted {c} box L box' L' := by
  induction n generalizing box L with
  | zero =>
    have hnil : L c = [] := List.length_eq_zero_iff.mp (Nat.le_zero.mp hn)
    rw [hnil]
    refine ⟨_, L, rfl, hL.congr rfl rfl (fun _ _ _ => rfl) (fun _ _ _ => rfl) hL.allocated, ?_, ?_⟩
    · rintro _ rfl
      exact hnil
    · exact fun _ _ => ⟨rfl, fun _ _ => ⟨rfl, rfl⟩⟩
  | succ n ih =>
    cases hlast : (L c).getLast? with
    | none =>
      have hnil : L c = [] := List.getLast?_eq_none_iff.mp hlast
      refine ⟨_, L, rfl, hL.congr rfl rfl (fun _ _ _ => rfl) (fun _ _ _ => rfl) hL.allocated, ?_, ?_⟩
      · rintro _ rfl
        exact hnil
      · exact fun _ _ => ⟨rfl, fun _ _ => ⟨rfl, rfl⟩⟩
    | some frame =>
      obtain ⟨l, hl⟩ := List.getLast?_eq_some_iff.mp hlast
      set cleared := box.deleteParticles frame fun _ => True with hcleared
      have hlinked : Linked cleared L :=
        hL.congr rfl rfl (fun _ _ _ => rfl) (fun _ _ _ => rfl) hL.allocated
      have hremoved := (hlinked.removeLastFrame hl).2
      have hlength : (Function.update L c l c).length ≤ n := by
        rw [Function.update_self]
        rw [hl, List.length_append, List.length_singleton] at hn
        omega
      obtain ⟨box', L', hrun, hdeleted⟩ := ih hremoved hlength
      rw [Function.update_self, ← hlinked.getPreviousFrame hl] at hrun
      refine ⟨box', L', hrun, hdeleted.linked, hdeleted.emptied, fun s hs => ?_⟩
      have hne : s ≠ c := hs
      obtain ⟨hlist, hframes⟩ := hdeleted.others s hs
      rw [Function.update_of_ne hne] at hlist hframes
      refine ⟨hlist, fun p hp => ?_⟩
      have hframe : p ≠ frame := by
        rintro rfl
        exact hne (hL.disjoint s c p hp (by simp [hl]))
      obtain ⟨hmask, hattributes⟩ := hframes p hp
      rw [removeLastFrame_multiMask, hcleared, deleteParticles_multiMask_of_ne box hframe] at hmask
      rw [removeLastFrame_attributes] at hattributes
      exact ⟨hmask, hattributes⟩

theorem block_spec (hL : Linked box L) (c : DataSpace D) :
    ∃ box' L', block box c = some box' ∧ Deleted {c} box L box' L' := by
  rw [block, hL.last]
  exact loop_spec hL (hL.length_le c)

theorem run_deletes (hL : Linked box L) (blocks : List (DataSpace D)) :
    ∃ box' L', run blocks box = some box' ∧ Deleted {c | c ∈ blocks} box L box' L' := by
  induction blocks generalizing box L with
  | nil => exact ⟨box, L, rfl, hL, fun c hc => absurd hc List.not_mem_nil, fun _ _ => ⟨rfl, fun _ _ => ⟨rfl, rfl⟩⟩⟩
  | cons c blocks ih =>
    obtain ⟨box₁, L₁, hblock, hfirst⟩ := block_spec hL c
    obtain ⟨box', L', hrun, hrest⟩ := ih hfirst.linked
    refine ⟨box', L', ?_, hrest.linked, fun s hs => ?_, fun s hs => ?_⟩
    · rw [run, List.foldlM_cons, hblock]
      exact hrun
    · by_cases hmem : s ∈ blocks
      · exact hrest.emptied s hmem
      · obtain rfl : s = c := (List.mem_cons.mp hs).resolve_right hmem
        rw [(hrest.others s hmem).1]
        exact hfirst.emptied s rfl
    · obtain ⟨hne, hmem⟩ := not_or.mp (mt List.mem_cons.mpr hs)
      obtain ⟨hlist₁, hframes₁⟩ := hfirst.others s hne
      obtain ⟨hlist, hframes⟩ := hrest.others s hmem
      rw [hlist₁] at hlist hframes
      exact ⟨hlist, fun p hp =>
        ⟨(hframes p hp).1.trans (hframes₁ p hp).1, (hframes p hp).2.trans (hframes₁ p hp).2⟩⟩

end Block

end PIConGPU.KernelDeleteParticles
