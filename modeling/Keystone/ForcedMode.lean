/-
  `force_compact_` and the calls of `DB::compact`.

  One flag serves all callers: every call sets it on entry and clears it when it leaves its loop,
  whoever else is still inside. A caller left behind waits for rounds that are picked as ordinary
  ones, and may go round its loop for good.

  `covered_iff`: the flag covers every caller throughout a run exactly if no call ever leaves its
  loop while another one is inside.
-/
import Keystone.Sequence

namespace Keystone

/-- While a call of `compact` is inside its loop, the next round is a full merge. -/
def DB.Covered (db : DB) : Prop :=
  0 < db.waiting → db.forceCompact = true ∧
    pickCompaction db.opts db.forceCompact db.version = forcedJob db.version

/-- A call of `compact` that is about to leave its loop is the only one inside. -/
def LeavesLast (db : DB) : Event → Prop
  | .compactCall => DB.compactDone db.version = true → db.waiting = 0
  | .compactWake => DB.compactDone db.version = true → db.waiting = 1
  | _ => True

instance (db : DB) (ev : Event) : Decidable (LeavesLast db ev) := by
  cases ev <;> unfold LeavesLast <;> infer_instance

section Forced

variable {db db' : DB}

theorem covered_of_forced (h : 0 < db.waiting → db.forceCompact = true) : db.Covered :=
  fun hw => ⟨h hw, by rw [h hw]; rfl⟩

/-- **One step.** The flag covers the callers after it exactly if the call that leaves, if any,
    is the last one. -/
theorem covered_step {ev : Event} (h : db.Covered) (hstep : db.step ev = some db') :
    db'.Covered ↔ LeavesLast db ev := by
  have hsame : ev.ofCompact = false → db'.Covered := by
    intro hev
    obtain ⟨hw, hf⟩ := (DB.step_frame hstep).calls hev
    refine covered_of_forced fun hpos => ?_
    rw [hf]
    exact (h (hw ▸ hpos)).1
  cases ev with
  | compactCall =>
    obtain rfl := Option.some.inj hstep
    rcases DB.compactTurn_inv { db with forceCompact := true, waiting := db.waiting + 1 } with
      ⟨hd, he⟩ | ⟨hd, he⟩
    · rw [DB.compactCall, he]
      refine ⟨fun hc _ => ?_, fun hl => covered_of_forced fun hpos => ?_⟩
      · by_contra hw
        exact Bool.false_ne_true (hc (Nat.pos_of_ne_zero hw)).1
      · have hz : 0 < db.waiting := hpos
        rw [hl hd] at hz
        exact absurd hz (lt_irrefl 0)
    · rw [DB.compactCall, he]
      refine iff_of_true (covered_of_forced fun _ => rfl) fun hd' => ?_
      exact absurd (hd.symm.trans hd') Bool.false_ne_true
  | compactWake =>
    obtain ⟨hpos, -, -, rfl⟩ := DB.compactWake_inv hstep
    rcases DB.compactTurn_inv db with ⟨hd, he⟩ | ⟨hd, he⟩
    · rw [he]
      refine ⟨fun hc _ => ?_, fun hl => covered_of_forced fun hpos' => ?_⟩
      · by_contra hw
        have hmore : 0 < db.waiting - 1 := by omega
        exact Bool.false_ne_true (hc hmore).1
      · have hz : 0 < db.waiting - 1 := hpos'
        rw [hl hd] at hz
        exact absurd hz (lt_irrefl 0)
    · rw [he]
      refine iff_of_true (covered_of_forced fun _ => (h hpos).1) fun hd' => ?_
      exact absurd (hd.symm.trans hd') Bool.false_ne_true
  | reopen opts coins =>
    obtain ⟨-, -, -, -, hopen⟩ := DB.reopen_inv hstep
    obtain ⟨files, -, rfl⟩ := DB.open_inv hopen
    exact iff_of_true (fun hpos => absurd hpos (lt_irrefl 0)) trivial
  | _ => exact iff_of_true (hsame rfl) trivial

end Forced

/-- **Forced mode covers every caller**, in every state of a run, exactly if no call of `compact`
    leaves its loop while another one is inside. -/
theorem covered_iff {opts : Options} {coins : List (List Bool)} {dir : Dir} {db db' : DB}
    {evs : List Event} (hopen : DB.open opts coins dir = .ok db) (hrun : db.run evs = some db') :
    (∀ past rest s, evs = past ++ rest → db.run past = some s → s.Covered) ↔
      db.Meets LeavesLast evs := by
  obtain ⟨files, -, rfl⟩ := DB.open_inv hopen
  exact Steps.run_invariant_iff (fun _ h => h) (fun s ev s' h hstep => (covered_step h hstep).2)
    (fun s ev s' h hstep => (covered_step h hstep).1) (fun hpos => absurd hpos (lt_irrefl 0)) hrun

/-- Two flushed files and a call of `compact` that merges them and returns; then a second call,
    which finds nothing to do. -/
def oneAtATime : List Event :=
  callPut 1 1 ++ [.flush] ++ callPut 2 1 ++ [.flush, .compactCall, .pick plainQueue,
    .startWriter, .finishWriter, .commit, .compactWake, .compactCall]

theorem covered_iff_oneAtATime : ∃ db, (DB.create {}).run oneAtATime = some db ∧
    ∀ past rest s, oneAtATime = past ++ rest → (DB.create {}).run past = some s → s.Covered := by
  obtain ⟨db, hdb⟩ := Option.isSome_iff_exists.1
    (show ((DB.create {}).run oneAtATime).isSome = true by decide +kernel)
  exact ⟨db, hdb, (covered_iff (DB.open_empty {} []) hdb).2 (by decide +kernel)⟩

/-- Two calls of `compact` wait for one merge; the first one leaves, and a flush comes before the
    second one wakes up. -/
def leftBehind : List Event :=
  callPut 1 1 ++ [.flush] ++ callPut 2 1 ++ [.flush, .compactCall, .compactCall, .pick plainQueue,
    .startWriter, .finishWriter, .commit, .compactWake] ++ callPut 3 1 ++ [.flush, .compactWake]

/-- The second call is still inside its loop, its exit condition does not hold, and the round it
    waits for has no inputs. -/
theorem forced_mode_lost : ∃ db, (DB.create {}).run leftBehind = some db ∧
    db.waiting = 1 ∧ db.forceCompact = false ∧ DB.compactDone db.version = false ∧
    (pickCompaction db.opts db.forceCompact db.version).inputs = [] := by
  have h : (((DB.create {}).run leftBehind).map fun db =>
      decide (db.waiting = 1 ∧ db.forceCompact = false ∧ DB.compactDone db.version = false ∧
        (pickCompaction db.opts db.forceCompact db.version).inputs.length = 0)) = some true := by
    decide +kernel
  obtain ⟨db, hdb, hd⟩ := Option.map_eq_some_iff.1 h
  obtain ⟨h1, h2, h3, h4⟩ := of_decide_eq_true hd
  exact ⟨db, hdb, h1, h2, h3, List.length_eq_zero_iff.1 h4⟩

end Keystone
