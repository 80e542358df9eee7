/-
  Layers with copies.

  A crash between the MANIFEST append of a flush and the truncation of the log leaves the flushed
  entries in both: in a table and, after the replay, in the memtable above it. The memtable then
  holds an old version of a key above a table with a newer one, which it holds as well. So the
  layers are not in the order of `NotOlder` any more; what is left of it is `Covers`: a layer has
  a copy of whatever below it is newer than one of its own entries. That is enough for reads, and
  rounds and flushes keep it.

  * `Version.Covering`, `Nested`: the counterparts of `Layered` and `Placed`.
  * `RoundRuns.outputsCover`: what the outputs of a round cover.
-/
import Keystone.Read

namespace Keystone

theorem Covers.of_subset {xs ys : List Entry} (h : ∀ y ∈ ys, y ∈ xs) : Covers xs ys :=
  fun _ _ y hy _ => Or.inr (h y hy)

/-- Newer entries on top leave a layer covering. -/
theorem Covers.append_newer {xs ys zs : List Entry} (h : Covers xs ys)
    (hnew : ∀ z ∈ zs, ∀ y ∈ ys, y.seq ≤ z.seq) : Covers (zs ++ xs) ys := by
  intro x hx y hy hk
  rcases List.mem_append.1 hx with hx | hx
  · exact Or.inl (hnew x hx y hy)
  · exact (h x hx y hy hk).imp_right (List.mem_append_right zs)

/-- Later files of L0 cover earlier ones, and levels those below them. -/
def Version.Covering (ver : Version) : Prop := ver.LayeredBy Covers

/-- Where the files outside a round are, with copies allowed for. -/
def Nested (ver : Version) (job : CompactionJob) : Prop := PlacedBy Covers ver job

section Commit

variable {job : CompactionJob} {outputs : List FileMeta}

/-- An output has every merged entry that is newer than one of its own. -/
def OutputsCover (job : CompactionJob) (outputs : List FileMeta) : Prop :=
  ∀ f ∈ outputs, ∀ g ∈ job.inputs, Covers f.contents g.contents

/-- A copy below of what was merged is in the output, if it is newer than an entry there. -/
theorem OutputsCover.over {ver : Version} (h : OutputsCover job outputs)
    (ho : OutputsOk ver job outputs) : OutputsOver Covers job outputs := by
  intro f hf es hes x hx y hy hk
  obtain ⟨a, ha, hxa⟩ := ho.sub f hf x hx
  rcases hes a ha x hxa y hy hk with hle | hya
  · exact Or.inl hle
  · exact h f hf a ha x hx y hya hk

/-- A round that keeps an entry keeps every newer one of its key, and in the same file. -/
theorem RoundRuns.outputsCover {db : DB} (hu : UniqueSeqs db.entries)
    (hr : RoundRuns db ⟨job, [], none, outputs⟩) (ho : OutputsOk db.version job outputs) :
    OutputsCover job outputs := by
  obtain ⟨oldestSnap, stream, hok, -⟩ := hr.ok
  have hstream : ∀ {g e}, g ∈ job.inputs → e ∈ g.contents → e ∈ stream :=
    fun hg he => (hok.stream_mem _).2 ⟨_, hg, he⟩
  have hu' : UniqueSeqs stream := hu.subset fun e he => by
    obtain ⟨g, hg, he⟩ := (hok.stream_mem e).1 he
    exact DB.mem_entries.2 (Or.inr ⟨g, ho.inputs g hg, he⟩)
  have hparts : ∀ e, (∃ f ∈ outputs, e ∈ f.contents) ↔
      e ∈ retain oldestSnap job.isBottommost ⟨[], false⟩ stream := by
    intro e
    rw [← hok.kept]
    simp [Job.parts, Job.pieces]
  intro f hf g hg x hx y hy hk
  by_cases hle : y.seq ≤ x.seq
  · exact Or.inl hle
  -- the newer entry is above the oldest snapshot, hence kept
  obtain ⟨hxs, hkeep⟩ := (mem_retain_start hok.sorted hu' x).1 ((hparts x).1 ⟨f, hf, hx⟩)
  have hnew : oldestSnap < y.seq := by
    rcases hkeep with hlt | ⟨hanchor, -⟩
    · exact lt_trans hlt (not_le.1 hle)
    · exact not_le.1 fun hys => hle (hanchor.2 y (hstream hg hy) hk.symm hys)
  obtain ⟨f', hf', hy'⟩ := (hparts y).2 ((mem_retain_start hok.sorted hu' y).2
    ⟨hstream hg hy, Or.inl hnew⟩)
  by_cases he : f = f'
  · exact Or.inr (he ▸ hy')
  · exact absurd hk ((pairwise_apart ho.increase hf hf' he).key_ne (ho.ok f hf) (ho.ok f' hf') hx hy')

end Commit

end Keystone
