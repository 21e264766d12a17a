import Mathlib.Data.List.Chain
import Mathlib.Data.List.Nodup
import Strongbox.Counter

/-!
# The ledger of a counter

Of a counter that many stores draw numbers from, the ledger keeps the stored start of the
next batch, as far as it can be read, and the cursor of every store.  The live batches are
apart from each other and from all numbers drawn, and they lie below the stored start; so no
number is drawn twice.
-/

set_option autoImplicit false

namespace Strongbox

/-- A number that the cursor has not handed out. -/
def Cursor.Holds (c : Cursor) (n : Nat) : Prop := c.current < n ∧ n ≤ c.ceiling

/-- The stored start of the next batch and the cursors of the stores. -/
structure Ledger where
  start? : Option Nat
  cursor? : Nat → Option Cursor

namespace Ledger

/-- What happens to a ledger, and the number that is drawn thereby. -/
inductive Step : Ledger → Option Nat → Ledger → Prop
  /-- No number is drawn; cursors may be forgotten. -/
  | idle {l m : Ledger} (hstart : m.start? = l.start?)
      (hcursor : ∀ i c, m.cursor? i = some c → l.cursor? i = some c) : Step l none m
  /-- A store draws a number from its cursor. -/
  | draw {l m : Ledger} (i : Nat) {c : Cursor} (hc : l.cursor? i = some c)
      (hlive : c.current < c.ceiling) (hstart : m.start? = l.start?)
      (hcursor : m.cursor? i = some ⟨c.current + 1, c.ceiling⟩)
      (hothers : ∀ j, j ≠ i → m.cursor? j = l.cursor? j) : Step l (some (c.current + 1)) m
  /-- A store reserves a batch and draws its first number; what it has stored may turn out
  to be unreadable. -/
  | reserve {l m : Ledger} (i : Nat) {start : Nat} (hstart : l.start? = some start)
      (hnext : ∀ next, m.start? = some next → next = start + 1000)
      (hcursor : m.cursor? i = some ⟨start + 1, start + 999⟩)
      (hothers : ∀ j, j ≠ i → m.cursor? j = l.cursor? j) : Step l (some (start + 1)) m

/-! ## Any number of stores -/

/-- The numbers drawn are different, and no live batch holds a number that was drawn, that
another live batch holds or that the stored start has not passed. -/
structure Sound (l : Ledger) (drawn : List Nat) : Prop where
  nodup : drawn.Nodup
  unused : ∀ i c, l.cursor? i = some c → ∀ n ∈ drawn, ¬ c.Holds n
  apart : ∀ i j c d, i ≠ j → l.cursor? i = some c → l.cursor? j = some d →
    ∀ n, c.Holds n → ¬ d.Holds n
  drawn_lt : ∀ start, l.start? = some start → ∀ n ∈ drawn, n < start
  ceiling_lt : ∀ start, l.start? = some start → ∀ i c, l.cursor? i = some c → c.ceiling < start

/-- Before anything is counted, a ledger without cursors is sound. -/
theorem sound_nil {l : Ledger} (h : ∀ i, l.cursor? i = none) : l.Sound [] := by
  have hnone : ∀ i c, l.cursor? i ≠ some c := by
    intro i c hc
    rw [h i] at hc
    exact absurd hc (by simp)
  refine ⟨List.nodup_nil, ?_, ?_, ?_, ?_⟩
  · intro i c hc
    exact absurd hc (hnone i c)
  · intro i j c d _ hc
    exact absurd hc (hnone i c)
  · intro start _ n hn
    exact absurd hn List.not_mem_nil
  · intro start _ i c hc
    exact absurd hc (hnone i c)

/-- A number is drawn by a store whose cursor then holds numbers that nobody else has. -/
theorem Sound.handOut {l m : Ledger} {drawn : List Nat} (h : l.Sound drawn) {i n : Nat}
    {c : Cursor} (hcursor : m.cursor? i = some c)
    (hothers : ∀ j, j ≠ i → m.cursor? j = l.cursor? j) (hnew : n ∉ drawn) (hpast : ¬ c.Holds n)
    (hunused : ∀ k ∈ drawn, ¬ c.Holds k)
    (hapart : ∀ j d, j ≠ i → l.cursor? j = some d → ∀ k, k = n ∨ c.Holds k → ¬ d.Holds k)
    (hbelow : ∀ start, m.start? = some start → n < start ∧ c.ceiling < start ∧
      (∀ k ∈ drawn, k < start) ∧ ∀ j d, l.cursor? j = some d → d.ceiling < start) :
    m.Sound (drawn ++ [n]) := by
  -- Only the store at `i` has another cursor than before.
  have hcases : ∀ j d, m.cursor? j = some d →
      (j = i ∧ d = c) ∨ (j ≠ i ∧ l.cursor? j = some d) := by
    intro j d hd
    by_cases hsame : j = i
    · rw [hsame, hcursor] at hd
      injection hd with hd
      exact .inl ⟨hsame, hd.symm⟩
    · rw [hothers j hsame] at hd
      exact .inr ⟨hsame, hd⟩
  refine ⟨?_, ?_, ?_, ?_, ?_⟩
  · rw [List.nodup_append]
    refine ⟨h.nodup, List.nodup_singleton n, ?_⟩
    intro k hk k' hk' hsame
    rw [List.mem_singleton.1 hk'] at hsame
    rw [hsame] at hk
    exact hnew hk
  · intro j d hd k hk
    rw [List.mem_append, List.mem_singleton] at hk
    rcases hcases j d hd with ⟨-, rfl⟩ | ⟨hne, hd⟩
    · rcases hk with hk | rfl
      · exact hunused k hk
      · exact hpast
    · rcases hk with hk | rfl
      · exact h.unused j d hd k hk
      · exact hapart j d hne hd k (.inl rfl)
  · intro j j' d d' hne hd hd' k hk hk'
    rcases hcases j d hd with ⟨rfl, rfl⟩ | ⟨hji, hd⟩
    · rcases hcases j' d' hd' with ⟨rfl, -⟩ | ⟨hji', hd'⟩
      · exact hne rfl
      · exact hapart j' d' hji' hd' k (.inr hk) hk'
    · rcases hcases j' d' hd' with ⟨rfl, rfl⟩ | ⟨hji', hd'⟩
      · exact hapart j d hji hd k (.inr hk') hk
      · exact h.apart j j' d d' hne hd hd' k hk hk'
  · intro start hstart k hk
    obtain ⟨hn, -, hdrawn, -⟩ := hbelow start hstart
    rw [List.mem_append, List.mem_singleton] at hk
    rcases hk with hk | rfl
    · exact hdrawn k hk
    · exact hn
  · intro start hstart j d hd
    obtain ⟨-, hc, -, hlive⟩ := hbelow start hstart
    rcases hcases j d hd with ⟨-, rfl⟩ | ⟨-, hd⟩
    · exact hc
    · exact hlive j d hd

/-- One step keeps the ledger sound. -/
theorem Sound.step {l m : Ledger} {drawn : List Nat} {n : Option Nat} (h : l.Sound drawn)
    (hstep : Step l n m) : m.Sound (drawn ++ n.toList) := by
  cases hstep with
  | idle hstart hcursor =>
    rw [Option.toList_none, List.append_nil]
    refine ⟨h.nodup, ?_, ?_, ?_, ?_⟩
    · intro i c hc
      exact h.unused i c (hcursor i c hc)
    · intro i j c d hne hc hd
      exact h.apart i j c d hne (hcursor i c hc) (hcursor j d hd)
    · rw [hstart]
      exact h.drawn_lt
    · rw [hstart]
      intro start hs i c hc
      exact h.ceiling_lt start hs i c (hcursor i c hc)
  | @draw _ i c hc hlive hstart hcursor hothers =>
    -- The number drawn and those behind it are of the store's own batch.
    have hfirst : c.Holds (c.current + 1) := ⟨Nat.lt_succ_self _, hlive⟩
    have hrest : ∀ k, Cursor.Holds ⟨c.current + 1, c.ceiling⟩ k → c.Holds k :=
      fun k hk => ⟨Nat.lt_of_succ_lt hk.1, hk.2⟩
    refine h.handOut hcursor hothers ?_ ?_ ?_ ?_ ?_
    · intro hdrawn
      exact h.unused i c hc _ hdrawn hfirst
    · intro hholds
      exact Nat.lt_irrefl _ hholds.1
    · intro k hk hholds
      exact h.unused i c hc k hk (hrest k hholds)
    · rintro j d hne hd k (rfl | hk)
      · exact h.apart i j c d hne.symm hc hd _ hfirst
      · exact h.apart i j c d hne.symm hc hd k (hrest k hk)
    · intro start hs
      rw [hstart] at hs
      have hceiling := h.ceiling_lt start hs
      exact ⟨Nat.lt_of_le_of_lt hlive (hceiling i c hc), hceiling i c hc, h.drawn_lt start hs,
        hceiling⟩
  | @reserve _ i start hstart hnext hcursor hothers =>
    -- All numbers drawn and all live batches lie below the stored start.
    have hdrawn := h.drawn_lt start hstart
    have hceiling := h.ceiling_lt start hstart
    refine h.handOut hcursor hothers ?_ ?_ ?_ ?_ ?_
    · intro hmem
      have hlt := hdrawn _ hmem
      omega
    · intro hholds
      exact Nat.lt_irrefl _ hholds.1
    · intro k hk hholds
      have hlt := hdrawn k hk
      have hgt := hholds.1
      dsimp only at hgt
      omega
    · -- the batch of any other store ends before the reserved one begins
      intro j d _ hd k hk hholds
      have hle := hholds.2
      have hlt := hceiling j d hd
      rcases hk with rfl | hk
      · omega
      · have hgt := hk.1
        dsimp only at hgt
        omega
    · intro next hs
      have heq := hnext next hs
      refine ⟨by omega, by dsimp only; omega, ?_, ?_⟩
      · intro k hk
        have hlt := hdrawn k hk
        omega
      · intro j d hd
        have hlt := hceiling j d hd
        omega

/-! ## One store at a time -/

/-- No two stores have a cursor. -/
def IsSingle (l : Ledger) : Prop :=
  ∀ i j, (l.cursor? i).isSome → (l.cursor? j).isSome → i = j

/-- The numbers drawn ascend by at most 1000 at a time; the live cursor stands at the last of
them, and the stored start is not far beyond it. -/
structure Ordered (l : Ledger) (drawn : List Nat) : Prop where
  ascending : drawn.Pairwise (· < ·)
  near : drawn.IsChain fun m n => n ≤ m + 1000
  start_le : ∀ start, l.start? = some start → ∀ n ∈ drawn.getLast?, start ≤ n + 999
  le_current : ∀ i c, l.cursor? i = some c → ∀ n ∈ drawn, n ≤ c.current
  last_eq : ∀ i c, l.cursor? i = some c → drawn.getLast? = some c.current

/-- Before anything is counted, a ledger without cursors is in order. -/
theorem ordered_nil {l : Ledger} (h : ∀ i, l.cursor? i = none) : l.Ordered [] := by
  have hnone : ∀ i c, l.cursor? i ≠ some c := by
    intro i c hc
    rw [h i] at hc
    exact absurd hc (by simp)
  refine ⟨List.Pairwise.nil, List.isChain_nil, ?_, ?_, ?_⟩
  · intro start _ n hn
    exact absurd hn (by simp)
  · intro i c hc
    exact absurd hc (hnone i c)
  · intro i c hc
    exact absurd hc (hnone i c)

/-- A number is drawn by the only store with a cursor. -/
theorem Ordered.handOut {l m : Ledger} {drawn : List Nat} (h : l.Ordered drawn)
    (hsingle : m.IsSingle) {i : Nat} {c : Cursor} (hcursor : m.cursor? i = some c)
    (habove : ∀ k ∈ drawn, k < c.current)
    (hnear : ∀ k ∈ drawn.getLast?, c.current ≤ k + 1000)
    (hstart : ∀ start, m.start? = some start → start ≤ c.current + 999) :
    m.Ordered (drawn ++ [c.current]) := by
  have honly : ∀ j d, m.cursor? j = some d → d = c := by
    intro j d hd
    have hsame : j = i := hsingle j i (by rw [hd]; rfl) (by rw [hcursor]; rfl)
    rw [hsame, hcursor] at hd
    injection hd with hd
    exact hd.symm
  have hlast : (drawn ++ [c.current]).getLast? = some c.current := List.getLast?_concat
  have hmax : ∀ k ∈ drawn ++ [c.current], k ≤ c.current := by
    intro k hk
    rw [List.mem_append, List.mem_singleton] at hk
    rcases hk with hk | rfl
    · exact Nat.le_of_lt (habove k hk)
    · exact Nat.le_refl _
  refine ⟨?_, ?_, ?_, ?_, ?_⟩
  · rw [List.pairwise_append]
    refine ⟨h.ascending, List.pairwise_singleton _ _, ?_⟩
    intro k hk n hn
    rw [List.mem_singleton.1 hn]
    exact habove k hk
  · rw [List.isChain_append]
    refine ⟨h.near, List.isChain_singleton _, ?_⟩
    intro k hk n hn
    rw [List.head?_cons, Option.mem_some] at hn
    rw [← hn]
    exact hnear k hk
  · intro start hs k hk
    rw [hlast, Option.mem_some] at hk
    rw [← hk]
    exact hstart start hs
  · intro j d hd k hk
    rw [honly j d hd]
    exact hmax k hk
  · intro j d hd
    rw [honly j d hd]
    exact hlast

/-- One step to a ledger with a single cursor keeps the order. -/
theorem Ordered.step {l m : Ledger} {drawn : List Nat} {n : Option Nat} (h : l.Ordered drawn)
    (hsound : l.Sound drawn) (hsingle : m.IsSingle) (hstep : Step l n m) :
    m.Ordered (drawn ++ n.toList) := by
  cases hstep with
  | idle hstart hcursor =>
    rw [Option.toList_none, List.append_nil]
    refine ⟨h.ascending, h.near, ?_, ?_, ?_⟩
    · rw [hstart]
      exact h.start_le
    · intro i c hc
      exact h.le_current i c (hcursor i c hc)
    · intro i c hc
      exact h.last_eq i c (hcursor i c hc)
  | @draw _ i c hc hlive hstart hcursor hothers =>
    have hlast := h.last_eq i c hc
    refine h.handOut hsingle hcursor ?_ ?_ ?_
    · intro k hk
      exact Nat.lt_succ_of_le (h.le_current i c hc k hk)
    · intro k hk
      rw [hlast, Option.mem_some] at hk
      dsimp only
      omega
    · intro start hs
      rw [hstart] at hs
      have hle := h.start_le start hs c.current hlast
      dsimp only
      omega
  | @reserve _ i start hstart hnext hcursor hothers =>
    refine h.handOut hsingle hcursor ?_ ?_ ?_
    · intro k hk
      exact Nat.lt_succ_of_lt (hsound.drawn_lt start hstart k hk)
    · intro k hk
      have hle := h.start_le start hstart k hk
      dsimp only
      omega
    · intro next hs
      have heq := hnext next hs
      dsimp only
      omega

end Ledger

end Strongbox
