import Consensus.Proofs.World.Account

/-!
# Logs match

An entry is known by its index and its term: where two nodes have entries of one
term at one index, these are the same entry, and the logs are the same up to
there.  The node that stopped still counts, with what its disk holds, and so does
what a node held at an earlier moment.

The ledger has the reason.  Every entry of a log was appended by the leader of
its term after the entries that stand before it, so both logs are up to that
entry what this one leader had.
-/

namespace Consensus

variable {S : Scope} {ℓ : Ledger} {id index : ℕ} {e : Entry}

/-- The entry that a node has at the index, in its log or, once it stopped, on its
disk. -/
def Place.get? (place : Place) (index : ℕ) : Option Entry :=
  match place with
  | .up n => n.log.get? index
  | .down d => d.disk.entries.find? fun e => decide (e.index = index)
  | .failed => none

/-- What a node has at an index stands there in the ledger. -/
theorem Place.Accounted.entry {place : Place} (h : place.Accounted S ℓ id)
    (hall : Numbered (ℓ.log id)) (hentry : place.get? index = some e) :
    0 < index ∧ (ℓ.log id)[index - 1]? = some e := by
  cases place with
  | up n =>
      have hshows : n.log.get? index = _ := h.tracks.journal.log.get?_eq index
      rw [show n.log.get? index = some e from hentry] at hshows
      split at hshows
      · exact absurd hshows (by simp)
      · exact ⟨by omega, hshows.symm⟩
  | down d =>
      have hfound : d.disk.entries.find? (fun e => decide (e.index = index)) =
          some e := hentry
      have hindex : e.index = index := by simpa using List.find?_some hfound
      have hmem : e ∈ d.disk.entries := List.mem_of_find?_eq_some hfound
      rw [h.keeps.entries] at hmem
      obtain ⟨k, hk⟩ := List.mem_iff_getElem?.mp (List.mem_of_mem_drop hmem)
      have hposition : e.index = k + 1 := hall k e hk
      obtain rfl : index = k + 1 := by omega
      exact ⟨Nat.succ_pos k, hk⟩
  | failed => exact absurd hentry (by simp [Place.get?])

/-- Lists that agree have the same entries up to an entry of one term. -/
theorem Agree.getElem?_eq {xs ys : List Entry} {k before : ℕ} {e e' : Entry}
    (h : Agree xs ys) (hx : xs[k]? = some e) (hy : ys[k]? = some e')
    (hterm : e.term = e'.term) (hle : before ≤ k) : xs[before]? = ys[before]? := by
  have htake : xs.take (k + 1) = ys.take (k + 1) := by
    refine h (k + 1) e.term ?_ ?_
    · rw [termAt_succ, hx, Option.map_some]
    · rw [termAt_succ, hy, Option.map_some, hterm]
  calc xs[before]?
    _ = (xs.take (k + 1))[before]? := (List.getElem?_take_of_lt (by omega)).symm
    _ = (ys.take (k + 1))[before]? := by rw [htake]
    _ = ys[before]? := List.getElem?_take_of_lt (by omega)

namespace Run

variable {r : Run S} {ledger : ℕ → Ledger}

/-- Two nodes that have entries of one term at one index, at whatever moments,
have the same entry there, and the same entries before it as far as both still
have them. -/
def LogsMatch (r : Run S) : Prop :=
  ∀ j k a b index e e', ((r.world j).place a).get? index = some e →
    ((r.world k).place b).get? index = some e' → e.term = e'.term →
      e = e' ∧ ∀ before < index, ∀ f f',
        ((r.world j).place a).get? before = some f →
          ((r.world k).place b).get? before = some f' → f = f'

/-- The logs of any two nodes at any two moments agree. -/
theorem Account.agree (h : r.Account ledger) (j k a b : ℕ) :
    Agree ((ledger j).log a) ((ledger k).log b) := by
  -- the later ledger still has what grounds either log
  have hj := ((h.sound j).node a).grounded.mono (h.grows (le_max_left j k))
  have hk := ((h.sound k).node b).grounded.mono (h.grows (le_max_right j k))
  exact hj.agree hk

/-- Where there is an account, logs match. -/
theorem Account.logsMatch (h : r.Account ledger) : r.LogsMatch := by
  intro j k a b index e e' ha hb hterm
  have hagree := h.agree j k a b
  have halla := (h.accounted j).numbered a
  have hallb := (h.accounted k).numbered b
  obtain ⟨hpos, hx⟩ := ((h.accounted j).place a).entry halla ha
  obtain ⟨-, hy⟩ := ((h.accounted k).place b).entry hallb hb
  refine ⟨?_, fun before hlt f f' hf hf' => ?_⟩
  · have hsame := hagree.getElem?_eq hx hy hterm le_rfl
    rw [hx, hy] at hsame
    exact Option.some.inj hsame
  · obtain ⟨-, hxf⟩ := ((h.accounted j).place a).entry halla hf
    obtain ⟨-, hyf⟩ := ((h.accounted k).place b).entry hallb hf'
    have hsame := hagree.getElem?_eq hx hy hterm
      (by omega : before - 1 ≤ index - 1)
    rw [hxf, hyf] at hsame
    exact Option.some.inj hsame

/-- Where the members stay, logs match. -/
theorem logsMatch_of_stays {members : NodeSet} (r : Run (.stays members)) :
    r.LogsMatch := by
  obtain ⟨ledger, h⟩ := r.exists_account (Or.inl trivial)
  exact h.logsMatch

end Run

end Consensus
