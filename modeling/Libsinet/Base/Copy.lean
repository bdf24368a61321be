import Libsinet.Base.Bytes

/-!
# Copying between regions

A copy is a list of chunks, each loaded as a whole before it is stored, so the
list is also the record of all loads and stores. Where the chunks keep step, the
target has the source's bytes at every offset that some chunk covers.
-/

namespace Bytes

/-- `n` bytes from `src` stored at `dst`. -/
structure Chunk where
  src : Nat
  dst : Nat
  n : Nat
  deriving DecidableEq, Repr

def Chunk.run (m : Mem) (c : Chunk) : Mem := fun i =>
  if c.dst ≤ i ∧ i < c.dst + c.n then m (c.src + (i - c.dst)) else m i

def copy (m : Mem) (cs : List Chunk) : Mem := cs.foldl Chunk.run m

/-- At one offset in both regions, and inside both. -/
def Chunk.Within (src dst size : Nat) (c : Chunk) : Prop :=
  ∃ off, c.src = src + off ∧ c.dst = dst + off ∧ off + c.n ≤ size

def Apart (a b size : Nat) : Prop := a + size ≤ b ∨ b + size ≤ a

instance (a b size : Nat) : Decidable (Apart a b size) := inferInstanceAs (Decidable (_ ∨ _))

variable {m : Mem} {cs : List Chunk} {c : Chunk} {src dst size size' : Nat}

theorem Chunk.Within.mono (h : c.Within src dst size) (hle : size ≤ size') : c.Within src dst size' := by
  obtain ⟨off, hs, hd, hn⟩ := h
  exact ⟨off, hs, hd, hn.trans hle⟩

theorem copy_other (hin : ∀ c ∈ cs, c.Within src dst size) (hi : i < dst ∨ dst + size ≤ i) :
    copy m cs i = m i := by
  induction cs generalizing m with
  | nil => rfl
  | cons c cs ih =>
    obtain ⟨off, -, hd, hn⟩ := hin c List.mem_cons_self
    have hout : ¬ (c.dst ≤ i ∧ i < c.dst + c.n) := by omega
    have hrun : c.run m i = m i := if_neg hout
    exact (ih fun c hc => hin c (List.mem_cons_of_mem _ hc)).trans hrun

theorem copy_source (hin : ∀ c ∈ cs, c.Within src dst size) (ha : Apart src dst size) (hk : k < size) :
    copy m cs (src + k) = m (src + k) := by
  refine copy_other hin ?_
  unfold Apart at ha
  omega

theorem copy_covered (hin : ∀ c ∈ cs, c.Within src dst size) (ha : Apart src dst size) (hk : k < size)
    (hc : ∃ c ∈ cs, c.dst ≤ dst + k ∧ dst + k < c.dst + c.n) : copy m cs (dst + k) = m (src + k) := by
  induction cs using List.reverseRecOn with
  | nil =>
    obtain ⟨c, hmem, -⟩ := hc
    cases hmem
  | append_singleton cs c ih =>
    have hin' : ∀ c ∈ cs, c.Within src dst size := fun c hc => hin c (List.mem_append_left _ hc)
    have hrun : copy m (cs ++ [c]) = c.run (copy m cs) := by simp [copy]
    rw [hrun, Chunk.run]
    split
    · -- the last chunk to cover the offset reads a source that no chunk has written
      obtain ⟨off, hs, hd, -⟩ := hin c (by simp)
      have hoff : c.src + (dst + k - c.dst) = src + k := by omega
      rw [hoff, copy_source hin' ha hk]
    · rename_i hout
      obtain ⟨d, hmem, hd⟩ := hc
      rcases List.mem_append.mp hmem with hmem | hmem
      · exact ih hin' ⟨d, hmem, hd⟩
      · obtain rfl := List.mem_singleton.mp hmem
        exact absurd hd hout

end Bytes
