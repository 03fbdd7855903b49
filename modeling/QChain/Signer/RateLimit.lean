import Mathlib
import QChain.Signer.Daemon

/-!
# The signer's rate limit is a sliding window

`RateLimiter::allow_at` trims its queue from the front only, and only when it is asked. With
instants that never go back, what is left is what was granted in the window.
-/

namespace QChain

open List

namespace RateLimiter

/-- A request, with the instants granted so far. -/
def request (s : RateLimiter × List ℕ) (now : ℕ) : RateLimiter × List ℕ :=
  let (allowed, limiter) := s.1.allowAt now
  (limiter, if allowed then s.2 ++ [now] else s.2)

/-- How many of the instants are in the interval from `start` on. -/
def within (start width : ℕ) (instants : List ℕ) : ℕ :=
  instants.countP fun t => start ≤ t ∧ t < start + width

/-- After a request at `now`: the limiter keeps the granted instants that are in the window, now
or later. -/
structure Window (rl : RateLimit) (now : ℕ) (s : RateLimiter × List ℕ) : Prop where
  limit : s.1.limit = some rl
  sorted : s.2.Pairwise (· ≤ ·)
  past : ∀ t ∈ s.2, t ≤ now
  sublist : s.1.recent <+ s.2
  recent : ∀ later, now ≤ later → s.1.recent.filter (fun t => later < t + rl.window) =
    s.2.filter fun t => later < t + rl.window
  within_le : ∀ start, within start rl.window s.2 ≤ rl.maxSigns

variable {rl : RateLimit} {now : ℕ} {s : RateLimiter × List ℕ}

/-- Trimming from the front leaves the instants in the window, as the older ones come first. -/
theorem dropWhile_eq_filter {instants : List ℕ} (hsorted : instants.Pairwise (· ≤ ·))
    (hpast : ∀ t ∈ instants, t ≤ now) :
    instants.dropWhile (fun front => decide (rl.window ≤ now - front)) =
      instants.filter fun t => now < t + rl.window := by
  induction instants with
  | nil => rfl
  | cons front instants ih =>
    obtain ⟨hfront, hrest⟩ := pairwise_cons.1 hsorted
    obtain ⟨hle, hpast⟩ := forall_mem_cons.1 hpast
    rw [dropWhile_cons]
    split_ifs with hold
    · rw [ih hrest hpast, filter_cons_of_neg]
      simp only [decide_eq_true_iff] at hold ⊢
      omega
    · symm
      rw [filter_eq_self]
      intro t ht
      have hle : front ≤ t := by
        rcases mem_cons.1 ht with rfl | ht
        · exact le_rfl
        · exact hfront t ht
      simp only [decide_eq_true_iff] at hold ⊢
      omega

/-- The instants kept are those of one interval. -/
theorem Window.length_eq (h : Window rl now s) {now' : ℕ} (hle : now ≤ now') :
    (s.2.filter fun t => now' < t + rl.window).length =
      within (now' + 1 - rl.window) rl.window s.2 := by
  rw [← countP_eq_length_filter]
  refine countP_congr fun t ht => ?_
  have hpast := h.past t ht
  simp only [decide_eq_true_iff]
  omega

/-- `allow_at` at a later instant: it counts what was granted in the window. -/
theorem Window.allowAt (h : Window rl now s) {now' : ℕ} (hle : now ≤ now') :
    let kept := s.2.filter fun t => now' < t + rl.window
    s.1.allowAt now' = if rl.maxSigns ≤ kept.length then (false, ⟨some rl, kept⟩)
      else (true, ⟨some rl, kept ++ [now']⟩) := by
  intro kept
  have hkept : s.1.recent.dropWhile (fun front => decide (rl.window ≤ now' - front)) = kept := by
    rw [dropWhile_eq_filter (h.sorted.sublist h.sublist), h.recent now' hle]
    intro t ht
    exact (h.past t (h.sublist.subset ht)).trans hle
  have hlength : kept.length ≤ rl.maxSigns := by
    rw [h.length_eq hle]
    exact h.within_le _
  have hlt := rl.maxSigns.toNat_lt
  have hword : ((Word.ofNat kept.length : Word 32) : ℕ) = kept.length :=
    Word.toNat_ofNat_of_lt (by omega)
  rw [RateLimiter.allowAt, h.limit]
  simp only [hkept, Word.le_iff, hword]

theorem Window.request (h : Window rl now s) {now' : ℕ} (hle : now ≤ now') :
    Window rl now' (request s now') := by
  rw [RateLimiter.request, h.allowAt hle]
  have hpast : ∀ t ∈ s.2, t ≤ now' := fun t ht => (h.past t ht).trans hle
  have hlater : ∀ later, now' ≤ later →
      (s.2.filter fun t => now' < t + rl.window).filter (fun t => later < t + rl.window) =
        s.2.filter fun t => later < t + rl.window := by
    intro later hlater
    rw [filter_filter]
    refine filter_congr fun t _ => ?_
    simp only [← Bool.decide_and, decide_eq_decide]
    omega
  split_ifs with hfull
  · exact ⟨rfl, h.sorted, hpast, filter_sublist, hlater, h.within_le⟩
  · show Window rl now' (⟨some rl, (s.2.filter _) ++ [now']⟩, s.2 ++ [now'])
    refine ⟨rfl, ?_, ?_, filter_sublist.append_right _, ?_, ?_⟩
    · exact pairwise_append.2 ⟨h.sorted, pairwise_singleton .., by simpa using hpast⟩
    · simpa [or_imp, forall_and] using hpast
    · intro later hle'
      rw [filter_append, filter_append, hlater later hle']
    · intro start
      have hbefore := h.within_le start
      rw [within] at hbefore ⊢
      rw [countP_append, countP_singleton]
      by_cases hin : start ≤ now' ∧ now' < start + rl.window
      · -- what was granted in the interval before is still in the window
        have hmono : s.2.countP (fun t => start ≤ t ∧ t < start + rl.window) ≤
            (s.2.filter fun t => now' < t + rl.window).length := by
          rw [← countP_eq_length_filter]
          refine countP_mono_left fun t _ ht => ?_
          simp only [decide_eq_true_iff] at ht ⊢
          omega
        rw [if_pos (decide_eq_true hin)]
        omega
      · rwa [if_neg (by simpa using hin)]

theorem Window.run {instants : List ℕ} (h : Window rl now s)
    (hsorted : (now :: instants).Pairwise (· ≤ ·)) {later : ℕ} (hnow : now ≤ later)
    (hlater : ∀ t ∈ instants, t ≤ later) :
    ∃ last ≤ later, Window rl last (Run.run RateLimiter.request s instants) := by
  induction instants generalizing now s with
  | nil => exact ⟨now, hnow, h⟩
  | cons t instants ih =>
    obtain ⟨hle, hrest⟩ := pairwise_cons.1 hsorted
    obtain ⟨ht, hlater⟩ := forall_mem_cons.1 hlater
    exact ih (h.request (hle t (mem_cons_self ..))) hrest ht hlater

/-- The limit is one of a sliding window: no interval of its length has more grants than allowed,
and a request is refused only if that many were granted in the window up to it. -/
theorem sliding_window (rl : RateLimit) {instants : List ℕ} (hsorted : instants.Pairwise (· ≤ ·)) :
    let s := Run.run request (.new (some rl), []) instants
    (∀ start, within start rl.window s.2 ≤ rl.maxSigns) ∧
      ∀ now, (∀ t ∈ instants, t ≤ now) → (s.1.allowAt now).1 = false →
        s.2.countP (fun t => now < t + rl.window ∧ t ≤ now) = rl.maxSigns := by
  intro s
  have hnew : Window rl 0 (.new (some rl), []) :=
    ⟨rfl, .nil, nofun, .refl _, fun _ _ => rfl, fun _ => Nat.zero_le _⟩
  have hwindow : ∀ now, (∀ t ∈ instants, t ≤ now) → ∃ last ≤ now, Window rl last s :=
    fun now => hnew.run (pairwise_cons.2 ⟨fun _ _ => Nat.zero_le _, hsorted⟩) (Nat.zero_le _)
  constructor
  · obtain ⟨last, -, h⟩ := hwindow instants.sum fun t => single_le_sum (by simp) t
    exact h.within_le
  · intro now hnow hrefused
    obtain ⟨last, hle, h⟩ := hwindow now hnow
    rw [h.allowAt hle] at hrefused
    split_ifs at hrefused with hfull
    have hlength := h.length_eq hle
    have hbound := h.within_le (now + 1 - rl.window)
    have hcount : s.2.countP (fun t => now < t + rl.window ∧ t ≤ now) =
        (s.2.filter fun t => now < t + rl.window).length := by
      rw [← countP_eq_length_filter]
      refine countP_congr fun t ht => ?_
      have hpast := h.past t ht
      simp only [decide_eq_true_iff]
      omega
    omega

/-- Two requests in a window of one, and a third after it. -/
theorem sliding_window_one :
    let s := Run.run request (.new (some ⟨1, 10⟩), []) [3, 5, 13]
    s.2 = [3, 13] ∧ within 4 10 s.2 ≤ 1 :=
  ⟨by decide +kernel, (sliding_window ⟨1, 10⟩ (by decide)).1 4⟩

end RateLimiter
end QChain
