import Mathlib.Tactic.Common

/-! # Forced mates

A game between an attacker, with positions `α`, and a defender, with positions
`δ`.  `Wins n a` says that the attacker, to move at `a`, mates within `n` of his
moves: he has a move after which the defender is in check without a reply, or
has replies and loses after each of them.  A defender without a reply who is not
in check is not mated.

More moves never hurt (`Wins.mono`), and a simulation carries mates from one game
to another: the second game matches the attacker's moves, and has no replies
that the first has not.  It need not match the moves after which the defender can go
back to where the play came from (`ReturnSimulation`).
-/
namespace MateGame

/-- A game of an attacker and a defender. -/
structure Game (α δ : Type*) where
  /-- The attacker's moves. -/
  attack : α → δ → Prop
  /-- The defender's replies. -/
  reply : δ → α → Prop
  /-- The defender is in check. -/
  check : δ → Prop

namespace Game
variable {α δ : Type*} (G : Game α δ)

/-- The attacker mates within `n` of his moves. -/
def Wins : ℕ → α → Prop
  | 0, _ => False
  | n + 1, a => ∃ d, G.attack a d ∧
      ((G.check d ∧ ∀ a', ¬ G.reply d a') ∨
        ((∃ a', G.reply d a') ∧ ∀ a', G.reply d a' → Wins n a'))

/-- The defender, to move, is mated or will be within `n` of the attacker's moves. -/
def Loses (n : ℕ) (d : δ) : Prop :=
  (G.check d ∧ ∀ a', ¬ G.reply d a') ∨
    ((∃ a', G.reply d a') ∧ ∀ a', G.reply d a' → G.Wins n a')

variable {G}

theorem wins_succ {n : ℕ} {a : α} : G.Wins (n + 1) a ↔ ∃ d, G.attack a d ∧ G.Loses n d := Iff.rfl

/-- A defender who is in check or has a reply loses if he loses after each of his
replies. -/
theorem loses_iff_forall {n : ℕ} {d : δ} (h : G.check d ∨ ∃ a', G.reply d a') :
    G.Loses n d ↔ ∀ a', G.reply d a' → G.Wins n a' := by
  constructor
  · intro hlost a' ha'
    rcases hlost with ⟨-, hno⟩ | ⟨-, hall⟩
    · exact absurd ha' (hno a')
    · exact hall a' ha'
  · intro hall
    by_cases hex : ∃ a', G.reply d a'
    · exact Or.inr ⟨hex, hall⟩
    · exact Or.inl ⟨h.resolve_right hex, not_exists.mp hex⟩

theorem Loses.of_wins {m n : ℕ} (h : ∀ a, G.Wins m a → G.Wins n a) {d : δ} (hd : G.Loses m d) :
    G.Loses n d := by
  rcases hd with hd | ⟨hex, hall⟩
  · exact Or.inl hd
  · exact Or.inr ⟨hex, fun a' ha' => h a' (hall a' ha')⟩

theorem Wins.succ {n : ℕ} : ∀ {a : α}, G.Wins n a → G.Wins (n + 1) a := by
  induction n with
  | zero => intro a h; exact h.elim
  | succ n ih =>
    intro a h
    obtain ⟨d, had, hd⟩ := wins_succ.mp h
    exact wins_succ.mpr ⟨d, had, hd.of_wins fun a' => ih⟩

/-- **More moves never hurt.** -/
theorem Wins.mono {m n : ℕ} (hmn : m ≤ n) {a : α} (h : G.Wins m a) : G.Wins n a := by
  induction hmn with
  | refl => exact h
  | step _ ih => exact ih.succ

theorem Loses.mono {m n : ℕ} (hmn : m ≤ n) {d : δ} (h : G.Loses m d) : G.Loses n d :=
  h.of_wins fun _ => Wins.mono hmn

/-- A forced mate has a shortest length. -/
theorem Wins.exists_shortest {n : ℕ} {a : α} (h : G.Wins n a) :
    ∃ k, k < n ∧ G.Wins (k + 1) a ∧ ¬ G.Wins k a := by
  induction n with
  | zero => exact h.elim
  | succ n ih =>
    by_cases hn : G.Wins n a
    · obtain ⟨k, hk, hwins⟩ := ih hn
      exact ⟨k, by omega, hwins⟩
    · exact ⟨n, by omega, h, hn⟩

/-- A defender of another game loses too who is in check as well, has replies where the
first one has, and loses after each of them if the first one loses after some reply. -/
theorem Loses.carry {α' δ' : Type*} {G' : Game α' δ'} {n : ℕ} {d : δ} {d' : δ'}
    (hcheck : G.check d → G'.check d') (hhas : ∀ a, G.reply d a → ∃ a', G'.reply d' a')
    (hreply : ∀ a', G'.reply d' a' → ∃ a, G.reply d a ∧ (G.Wins n a → G'.Wins n a'))
    (hd : G.Loses n d) : G'.Loses n d' := by
  rcases hd with ⟨hc, hno⟩ | ⟨⟨a₁, ha₁⟩, hall⟩
  · refine Or.inl ⟨hcheck hc, fun a' ha' => ?_⟩
    obtain ⟨a, ha, -⟩ := hreply a' ha'
    exact hno a ha
  · refine Or.inr ⟨hhas a₁ ha₁, fun a' ha' => ?_⟩
    obtain ⟨a, ha, hwins⟩ := hreply a' ha'
    exact hwins (hall a ha)

end Game

section Simulation
variable {α δ α' δ' : Type*}

/-- The second game matches the attacker's moves of the first and allows the
defender no more. -/
structure Simulation (G : Game α δ) (G' : Game α' δ') (R : α → α' → Prop) (S : δ → δ' → Prop) :
    Prop where
  attack : ∀ {a a' d}, R a a' → G.attack a d → ∃ d', G'.attack a' d' ∧ S d d'
  reply : ∀ {d d' a'}, S d d' → G'.reply d' a' → ∃ a, G.reply d a ∧ R a a'
  hasReply : ∀ {d d' a}, S d d' → G.reply d a → ∃ a', G'.reply d' a'
  check : ∀ {d d'}, S d d' → G.check d → G'.check d'

namespace Simulation
variable {G : Game α δ} {G' : Game α' δ'} {R : α → α' → Prop} {S : δ → δ' → Prop}

theorem loses_of_wins (h : Simulation G G' R S) {n : ℕ}
    (hw : ∀ {a a'}, R a a' → G.Wins n a → G'.Wins n a') {d : δ} {d' : δ'} (hS : S d d')
    (hd : G.Loses n d) : G'.Loses n d' := by
  refine hd.carry (h.check hS) (fun a => h.hasReply hS) fun a' ha' => ?_
  obtain ⟨a, ha, hR⟩ := h.reply hS ha'
  exact ⟨a, ha, hw hR⟩

/-- **A simulation carries forced mates over.** -/
theorem wins (h : Simulation G G' R S) :
    ∀ {n : ℕ} {a : α} {a' : α'}, R a a' → G.Wins n a → G'.Wins n a' := by
  intro n
  induction n with
  | zero => intro a a' _ hw; exact hw.elim
  | succ n ih =>
    intro a a' hR hw
    obtain ⟨d, had, hd⟩ := Game.wins_succ.mp hw
    obtain ⟨d', had', hS⟩ := h.attack hR had
    exact Game.wins_succ.mpr ⟨d', had', h.loses_of_wins ih hS hd⟩

theorem loses (h : Simulation G G' R S) {n : ℕ} {d : δ} {d' : δ'} (hS : S d d')
    (hd : G.Loses n d) : G'.Loses n d' := h.loses_of_wins h.wins hS hd

end Simulation
end Simulation

/-! ## Moves that may be left out

A move after which the defender can go back to the position of a round before is no
step towards a shortest mate: if the defender loses after it, then he loses after
having gone back, and the attacker was as near to the mate one round earlier.  So a
game in which such moves are missing has the same forced mates, as long as nothing
is missing in the first round (`ReturnSimulation.wins`).
-/

section Returns
variable {α δ α' δ' : Type*}

/-- A simulation that may leave out moves that lead back.  `S n a d d'` says that `d'`
stands for `d`, which was reached by a move from `a`, and `R n p a a'` that `a'` stands
for `a`, which was reached by a move and a reply from `p`; in either case `n` rounds may
follow. -/
structure ReturnSimulation (G : Game α δ) (G' : Game α' δ') (R : ℕ → α → α → α' → Prop)
    (S : ℕ → α → δ → δ' → Prop) : Prop where
  attack : ∀ {n p a a' d}, R (n + 1) p a a' → G.attack a d →
    (∃ d', G'.attack a' d' ∧ S n a d d') ∨ ∀ k, G.Loses k d → G.Wins k p
  reply : ∀ {n p d d' a'}, S n p d d' → G'.reply d' a' → ∃ a, G.reply d a ∧ R n p a a'
  hasReply : ∀ {n p d d' a}, S n p d d' → G.reply d a → ∃ a', G'.reply d' a'
  check : ∀ {n p d d'}, S n p d d' → G.check d → G'.check d'

namespace ReturnSimulation
variable {G : Game α δ} {G' : Game α' δ'} {R : ℕ → α → α → α' → Prop} {S : ℕ → α → δ → δ' → Prop}

theorem loses_of_wins (h : ReturnSimulation G G' R S) {n k : ℕ} {p : α}
    (hw : ∀ {a a'}, R n p a a' → G.Wins k a → G'.Wins k a') {d : δ} {d' : δ'} (hS : S n p d d')
    (hd : G.Loses k d) : G'.Loses k d' := by
  refine hd.carry (h.check hS) (fun a => h.hasReply hS) fun a' ha' => ?_
  obtain ⟨a, ha, hR⟩ := h.reply hS ha'
  exact ⟨a, ha, hw hR⟩

/-- Moves that come nearer to the mate are not left out. -/
theorem wins_of_nearer (h : ReturnSimulation G G' R S) (k : ℕ) :
    ∀ {n p a a'}, k ≤ n → ¬ G.Wins k p → R n p a a' → G.Wins k a → G'.Wins k a' := by
  induction k using Nat.strongRecOn with
  | ind k ih =>
    intro n p a a' hkn hp hR ha
    -- the first move of a shortest mate from here is matched
    obtain ⟨j, hjk, ⟨d, had, hd⟩, hshort⟩ := ha.exists_shortest
    obtain ⟨n, rfl⟩ : ∃ n', n = n' + 1 := ⟨n - 1, by omega⟩
    rcases h.attack hR had with ⟨d', had', hS⟩ | hback
    · refine Game.Wins.mono hjk (Game.wins_succ.mpr ⟨d', had', ?_⟩)
      exact h.loses_of_wins (ih j hjk (by omega) hshort) hS hd
    · exact absurd ((hback j hd).mono (Nat.le_of_lt hjk)) hp

/-- **Leaving out moves that lead back loses no forced mate.** -/
theorem wins (h : ReturnSimulation G G' R S) {n : ℕ} {a : α} {a' : α'}
    (hroot : ∀ d, G.attack a d → ∃ d', G'.attack a' d' ∧ S n a d d') (hw : G.Wins (n + 1) a) :
    G'.Wins (n + 1) a' := by
  obtain ⟨j, hj, ⟨d, had, hd⟩, hshort⟩ := hw.exists_shortest
  obtain ⟨d', had', hS⟩ := hroot d had
  refine Game.Wins.mono hj (Game.wins_succ.mpr ⟨d', had', ?_⟩)
  exact h.loses_of_wins (h.wins_of_nearer j (by omega) hshort) hS hd

end ReturnSimulation
end Returns
end MateGame
