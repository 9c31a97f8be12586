import BPTreeDB.Runs.Lives

/-!
# LSNs over the life of a database

The LSN counter is not stored anywhere: `WAL.open` sets it to `0`, and a recovery rebuilds it
from the records that it finds.  It must not fall back behind a checkpoint, because a recovery
skips every record whose LSN is not above that of the checkpoint.

Over a whole life, with crashes, the newest LSN never goes back, and each acknowledged change
and checkpoint moves it forward.  Between two calls the log is fsynced and numbered without a
gap up to the counter, and no page in memory is newer than the log, so that whatever the next
flush writes is covered by a durable record.
-/

namespace BPTreeDB.Runs

open Lib Eng Codec Lib.Program Lib.Transitions PageStore Engine DB WAL

variable {R : Regime} {M : KeyMap} {C : Content} {o : Option Content} {w : World} {disk : Disk}
  {rs : List WALRecord}

/-- The log of a process between two calls. -/
structure LogInOrder (w : World) : Prop where
  durable : ∃ bytes, w.disk.wal = some ⟨bytes, bytes⟩
  numbered : ∃ base, Numbered (base + 1) w.disk.loggedRecords
  last : lastLsn w.disk.loggedRecords = w.wal.currentLsn
  checkpoint : ∀ m, w.pager.metaPage = some m → m.lastCheckpointLsn ≤ w.wal.currentLsn
  pages : ∀ x cached page, (x, cached) ∈ w.pool.cache →
    w.pool.objects[cached.page]? = some page → BufferPool.pageLsn page ≤ w.wal.currentLsn

/-- The log of a database is in order. -/
def Site.InOrder : Site → Prop
  | .running w => LogInOrder w
  | .files disk => ∃ base, Numbered (base + 1) disk.loggedRecords

theorem Anchored.loggedRecords (h : Anchored R M o rs w) : w.disk.loggedRecords = rs := by
  obtain ⟨content, n, -, hdurable⟩ := h.data
  have hlog := logOnDisk_of_records rs
  rw [← h.log] at hlog
  exact hlog.loggedRecords hdurable.readable

/-- A page of the content is not newer than the log. -/
theorem HoldsMap.pageLsn_le {L x : ℕ} {page : Page} (h : HoldsMap R L M C)
    (hpage : C.pages x = some page) : BufferPool.pageLsn page ≤ L := by
  obtain ⟨H, T, hinv, -⟩ := h.tree
  obtain ⟨p, hp, hid⟩ := List.mem_map.mp (hinv.holds.only x page hpage)
  obtain ⟨page', hpage', -, hlsn⟩ := hinv.holds.stores p hp
  rw [hid, hpage] at hpage'
  obtain rfl := Option.some.inj hpage'
  exact hlsn

theorem Alive.logInOrder (h : Alive R M C rs w) : LogInOrder w := by
  have hrecords := h.anchored.loggedRecords
  obtain ⟨content, n, -, hdurable⟩ := h.anchored.data
  refine ⟨⟨_, h.anchored.log⟩, ?_, ?_, h.checkpointLsn, fun x cached page hmem hobject => ?_⟩
  · rw [hrecords]
    exact hdurable.readable.numbered
  · rw [hrecords]
    exact h.anchored.lsn.symm
  · obtain ⟨H, T, hholding⟩ := h.stands
    obtain ⟨page', hpage, hobject'⟩ := Holding.page_of_cached hholding hmem
    obtain rfl : page = page' := Option.some.inj (hobject.symm.trans hobject')
    exact h.holdsMap.pageLsn_le hpage

theorem Recoverable.numbered (h : Recoverable R M o rs disk) :
    ∃ base, Numbered (base + 1) disk.loggedRecords := by
  obtain ⟨part, content, -, -, hdurable⟩ := h.files
  rw [h.loggedRecords]
  exact hdurable.readable.numbered

theorem LifeHolds.inOrder {s : Site} {t : MapState} (h : LifeHolds R s t) : s.InOrder := by
  cases s with
  | running w =>
      cases t with
      | opened M =>
          obtain ⟨-, C, rs, halive⟩ := h
          exact halive.logInOrder
      | closed M => exact h.elim
      | jammed M => exact h.elim
  | files disk =>
      cases t with
      | opened M => exact h.elim
      | closed M =>
          obtain ⟨C, rs, hrecoverable⟩ := h
          exact hrecoverable.numbered
      | jammed M =>
          obtain ⟨-, rs, hrecoverable⟩ := h
          exact hrecoverable.numbered

/-- Over the life of a database LSNs are never reused: the newest one never goes back, an
acknowledged operation moves it forward, and the log is in order at every moment. -/
theorem lsn_discipline (config : Config) (w : World) (s₁ s₂ s₃ : Site) (es es' : List LifeEvent)
    (e : LifeEvent) (hcreated : Created config w) (hbefore : Run LifeStep (.running w) es s₁)
    (hstep : LifeStep s₁ e s₂) (hafter : Run LifeStep s₂ es' s₃) :
    s₁.InOrder ∧ s₁.lastLsn ≤ s₂.lastLsn ∧ (e.Logged → s₁.lastLsn < s₂.lastLsn) ∧
      s₂.lastLsn ≤ s₃.lastLsn ∧ s₃.InOrder := by
  obtain ⟨hR, hholds⟩ := hcreated.holds (R := plainRegime config.pageSizeBytes) rfl
  have hsim := life_simulates hR
  obtain ⟨t₁, -, h₁⟩ := hsim.run hbefore (fun e _ => e.within_plain) hholds
  obtain ⟨t₂, -, h₂, hle, hlogged⟩ := life_step hR e.within_plain h₁ hstep
  obtain ⟨t₃, -, h₃⟩ := hsim.run hafter (fun e _ => e.within_plain) h₂
  refine ⟨h₁.inOrder, hle, hlogged, ?_, h₃.inOrder⟩
  refine Run.le (P := fun _ => True)
    (I := fun s => ∃ t, LifeHolds (plainRegime config.pageSizeBytes) s t) ?_ hafter
    (fun _ _ => trivial) ⟨t₂, h₂⟩
  rintro s e s' - ⟨t, hs⟩ hnext
  obtain ⟨t', -, hs', hmono, -⟩ := life_step hR e.within_plain hs hnext
  exact ⟨⟨t', hs'⟩, hmono⟩

theorem busyLife_eq : busyLife = busyLife.take 36 ++
    [.answered (.delete (longKey 3)) (.deleted true)] :=
  rfl

/-- In the life that passes two stops of the machine and ends in a third one, the `delete` in
between has moved the LSN forward. -/
theorem lsn_discipline_lostLife : ∃ w s₁ s₂ disk, Created busyConfig w ∧
    Run LifeStep (.running w) (busyLife.take 36) s₁ ∧
      LifeStep s₁ (.answered (.delete (longKey 3)) (.deleted true)) s₂ ∧
      Run LifeStep s₂ [.failed .checkpoint] (.files disk) ∧ s₁.InOrder ∧
      s₁.lastLsn < s₂.lastLsn ∧ s₂.lastLsn ≤ (Site.files disk).lastLsn ∧
      (Site.files disk).InOrder := by
  obtain ⟨w, w₁, w₂, lsn, disk, hcreated, hbusy, -, -, hfailed, -⟩ := exists_lostLife
  rw [busyLife_eq] at hbusy
  obtain ⟨s₁, hbefore, hdelete⟩ := run_append_iff.mp hbusy
  cases hdelete with
  | cons hstep hnil =>
      cases hnil
      have hafter : Run LifeStep (.running w₁) [.failed .checkpoint] (.files disk) :=
        .single hfailed
      obtain ⟨horder₁, -, hlogged, hle, horder⟩ :=
        lsn_discipline busyConfig w _ _ _ _ [.failed .checkpoint] _ hcreated hbefore hstep hafter
      exact ⟨w, s₁, _, disk, hcreated, hbefore, hstep, hafter, horder₁, hlogged rfl, hle, horder⟩

end BPTreeDB.Runs
