import Mathlib.Data.List.Nodup

/-!
# Scans that stop when their output is full

A loop goes through a list and appends what it finds, until it has found `cap` things: it
finds the first `cap` of all (`forWhile_take`). Scans over groups may nest.

Two scans of the same groups find the same things if and only if they do so in every group
whose first thing they have room for and one more (`take_flatMap_eq_iff`).
-/

namespace GosKernel.CappedScan

open List

variable {α β σ : Type}

/-- `for (x : xs; cond; ) body`. -/
def forWhile (cond : σ → Bool) (body : α → σ → σ) : List α → σ → σ
  | [], s => s
  | x :: xs, s => if cond s then forWhile cond body xs (body x s) else s

theorem take_append_take (cap : Nat) (l m : List β) :
    (l.take cap ++ m).take cap = (l ++ m).take cap := by
  rw [take_append, take_append, take_take, Nat.min_self]
  rcases Nat.le_total cap l.length with hle | hle
  · rw [length_take_of_le hle, Nat.sub_self, Nat.sub_eq_zero_of_le hle]
  · rw [take_of_length_le hle]

/-- **A scan with a cap** finds the first things of all groups. -/
theorem forWhile_take {cap : Nat} {contents : σ → List β} {find : α → List β}
    {body : α → σ → σ} {cond : σ → Bool}
    (hcond : ∀ s, cond s = true ↔ (contents s).length < cap) (xs : List α)
    (hbody : ∀ x ∈ xs, ∀ s, (contents s).length < cap →
      contents (body x s) = (contents s ++ find x).take cap)
    (s : σ) (hs : (contents s).length ≤ cap) :
    contents (forWhile cond body xs s) = (contents s ++ xs.flatMap find).take cap := by
  induction xs generalizing s with
  | nil => simp [forWhile, take_of_length_le hs]
  | cons x xs ih =>
    rw [forWhile]
    by_cases hroom : (contents s).length < cap
    · have hx := hbody x mem_cons_self s hroom
      rw [if_pos ((hcond s).mpr hroom)]
      rw [ih (fun y hy => hbody y (mem_cons_of_mem _ hy)) (body x s)
        (by rw [hx]; exact length_take_le _ _)]
      rw [hx, take_append_take, flatMap_cons, append_assoc]
    · rw [if_neg (mt (hcond s).mp hroom)]
      rw [take_append_of_le_length (Nat.not_lt.mp hroom), take_of_length_le hs]

/-- A scan that finds at most one thing in each group. -/
theorem flatMap_toList_ite (p : α → Prop) [DecidablePred p] (f : α → β) (l : List α) :
    (l.flatMap fun x => (if p x then some (f x) else none).toList) = (l.filter (p ·)).map f := by
  induction l with
  | nil => rfl
  | cons x l ih =>
    rw [flatMap_cons, ih]
    by_cases hx : p x
    · simp [hx]
    · simp [hx]

/-! ## Two scans of the same groups -/

section Compare

variable {f g : α → List β} {first : α → β} {group : β → α}

/-- The first two things of a scan are of the same group only if the first group has two. -/
theorem second_group {s : α} {l : List α} (hs : s ∉ l)
    (hgroup : ∀ t, ∀ x ∈ f t, group x = t) {x : β} (hx : (l.flatMap f)[0]? = some x) :
    group x ≠ s := by
  intro hxs
  obtain ⟨t, ht, hxt⟩ := mem_flatMap.mp (mem_of_getElem? hx)
  rw [hgroup t x hxt] at hxs
  exact hs (hxs ▸ ht)

/-- A scan that finds more in its first group than the other one differs from it. -/
theorem take_ne_of_longer {n : Nat} {s : α} {l : List α} {m tail : List β} (hs : s ∉ l)
    (hgroup : ∀ t, ∀ x ∈ f t, group x = t) (htail : ∀ x ∈ tail, group x = s) (hne : tail ≠ []) :
    (tail ++ m).take (n + 1) ≠ (l.flatMap f).take (n + 1) := by
  obtain ⟨x, tail, rfl⟩ := exists_cons_of_ne_nil hne
  intro heq
  have hx := congrArg (·[0]?) heq
  simp only [List.getElem?_take] at hx
  exact second_group hs hgroup hx.symm (htail x mem_cons_self)

/-- **Two scans** that agree on the first thing of each group, and of which one finds nothing
else in a group where they differ. -/
theorem take_flatMap_eq_iff (hfirst : ∀ s, (f s = [] ∧ g s = []) ∨
      ∃ t u, f s = first s :: t ∧ g s = first s :: u ∧ (t = u ∨ t = [] ∨ u = []))
    (hgroup : ∀ s, group (first s) = s) (hf : ∀ s, ∀ x ∈ f s, group x = s)
    (hg : ∀ s, ∀ x ∈ g s, group x = s) {l : List α} (hl : l.Nodup) (n : Nat) :
    (l.flatMap f).take n = (l.flatMap g).take n ↔
      ∀ s, first s ∈ (l.flatMap f).take (n - 1) → f s = g s := by
  induction l generalizing n with
  | nil => simp
  | cons s l ih =>
    obtain ⟨hs, hl⟩ := nodup_cons.mp hl
    rw [flatMap_cons, flatMap_cons]
    rcases hfirst s with ⟨hfs, hgs⟩ | ⟨t, u, hfs, hgs, htu⟩
    · rw [hfs, hgs]
      exact ih hl n
    · by_cases heq : t = u
      · -- the group is the same in both scans, and so is what is left of the room
        have hsame : f s = g s := by rw [hfs, hgs, heq]
        rw [← hsame, take_append, take_append, append_right_inj, ih hl]
        refine forall_congr' fun s' => ?_
        by_cases hss : s' = s
        · subst hss
          exact iff_of_true (fun _ => hsame) (fun _ => hsame)
        · have hnot : first s' ∉ (f s).take (n - 1) :=
            fun hmem => hss ((hgroup s').symm.trans (hf s _ (mem_of_mem_take hmem)))
          rw [take_append, mem_append, or_iff_right hnot, Nat.sub_right_comm]
      · have hne : f s ≠ g s := by
          rw [hfs, hgs]
          exact fun h => heq (List.cons.inj h).2
        rcases n with - | - | n
        · simp
        · simp [hfs, hgs]
        · refine iff_of_false ?_ fun h => hne (h s ?_)
          · have htail : ∀ x ∈ t, group x = s := fun x hx => hf s x (by simp [hfs, hx])
            have hutail : ∀ x ∈ u, group x = s := fun x hx => hg s x (by simp [hgs, hx])
            rw [hfs, hgs, cons_append, cons_append]
            intro htake
            have htake := (List.cons.inj htake).2
            rcases htu with htu | rfl | rfl
            · exact heq htu
            · exact take_ne_of_longer hs hf hutail (Ne.symm heq) htake.symm
            · exact take_ne_of_longer hs hg htail heq htake
          · rw [hfs]
            exact mem_cons_self

end Compare

end GosKernel.CappedScan
