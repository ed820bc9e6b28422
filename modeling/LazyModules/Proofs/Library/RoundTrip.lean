import LazyModules.Proofs.Library.Snapshot

/-!
# Saving and loading

What one run saves, the next one loads: the same table in the same order. Only the file is between them. It is read
with every line break as LF, so a carriage return in a text must not stand in the file as it is, and it may be seen as a
text or as bytes.

**Results.** `save_rows`, `load_eq`: a table of texts on its way to a file, and back. `snapshot_restored`: the two put
together.
-/
namespace LazyModules.Library

/-- The snapshot that a run finds: none, if nothing was fetched yet, or what was fetched. -/
def Snapshot (d : Disk) (path : String) (rows : List (String × String)) : Prop :=
  d.doesExist path = .ok false ∧ rows = [] ∨ d.Holds path rows

theorem Snapshot.congr {d d' : Disk} {path : String} {rows : List (String × String)} (h : Snapshot d path rows)
    (hexists : d'.doesExist path = d.doesExist path) (hread : d'.readText path = d.readText path) :
    Snapshot d' path rows := by
  unfold Snapshot Disk.Holds at *
  rwa [hexists, hread]

/-- The rows of a snapshot come into the table in their order. -/
theorem insertAll_fieldsOf (done : List (String × String)) {rows : List (String × String)}
    (hkeys : (Table.keys (done ++ rows)).Nodup) :
    Table.insertAll (Document.fieldsOf done) (Document.fieldsOf rows) = Document.fieldsOf (done ++ rows) := by
  induction rows generalizing done with
  | nil => rw [List.append_nil]; rfl
  | cons r rows ih =>
    have hnext := ih (done ++ [r]) (by rwa [List.append_assoc, List.singleton_append])
    rw [List.append_assoc, List.singleton_append] at hnext
    rw [← hnext, ← Document.insert_fieldsOf (Table.not_mem_keys_of_nodup hkeys)]
    rfl

/-- The snapshot is read, if there is one. -/
theorem load_eq {path : String} {l : Library} {rows : List (String × String)}
    (hcache : l.cache = .empty (some path)) (h : Snapshot l.world.disk path rows)
    (hkeys : (Table.keys rows).Nodup) :
    ∃ report, load l = (.ok (), ⟨⟨some path, Document.fieldsOf rows, []⟩, report, l.world⟩) := by
  obtain ⟨⟨_, persisted, loaded⟩, report, world⟩ := l
  obtain ⟨rfl, rfl, rfl⟩ := Cache.mk.inj hcache
  rcases h with ⟨hexists, rfl⟩ | ⟨hexists, text, htext, hread⟩
  · refine ⟨report, ?_⟩
    simp only at hexists
    simp only [load, getCache, getDisk, bind, Computation.bind, hexists, Computation.ofExcept, Computation.pure]
    rfl
  · refine ⟨report.info ["Read", toString (Document.fieldsOf rows).length, "cached entries from", path], ?_⟩
    have hinsert : Table.insertAll [] (Document.fieldsOf rows) = Document.fieldsOf rows := insertAll_fieldsOf [] hkeys
    simp only at hexists htext
    simp only [load, getCache, getDisk, bind, Computation.bind, hexists, htext, hread, Computation.ofExcept,
      Computation.pure, pure, readDocument, modifyCache, info, Computation.modify, hinsert, Bool.not_true,
      Bool.false_eq_true, if_false]

/-- A table of texts is written, if a file can be. -/
theorem save_rows {path : String} {rows : List (String × String)} {l : Library} {d : Disk}
    (hpath : l.cache.path = some path) (hpersisted : l.cache.persisted = Document.fieldsOf rows)
    (hwrite : l.world.disk.write path
      (.text (Document.encode (Document.object (Document.fieldsOf rows)).pieces)) = .ok d) :
    ∃ report, save l = (.ok (), ⟨l.cache, report, { l.world with disk := d }⟩) := by
  refine ⟨l.report.info ["Saved", toString l.cache.size, "cached entries to", path], ?_⟩
  simp only [save, getCache, getDisk, bind, Computation.bind, hpath, hpersisted, hwrite, Computation.ofExcept,
    Computation.pure, Computation.modify, Document.unencodable?_fieldsOf, info]

/-- A snapshot restores the table that it was made from. Whatever texts a table maps to each other, if the path leads to
a place for a file then the table is saved there, and whoever loads a file with that text into a new cache has the
same table in the same order. -/
theorem snapshot_restored {l : Library} {path : String} {rows : List (String × String)}
    (hkeys : (Table.keys rows).Nodup) (hpath : l.cache.path = some path)
    (hrows : l.cache.persisted = Document.fieldsOf rows) (hnul : Disk.hasNul path = false)
    (hplace : (l.world.disk.target path).place?.isSome = true) :
    ∃ saved, save l = (.ok (), saved) ∧ saved.cache = l.cache ∧
      saved.world.disk.HoldsText path (String.ofList (Document.tableText rows)) ∧
      ∀ fresh : Library, fresh.cache = .empty (some path) →
        fresh.world.disk.HoldsText path (String.ofList (Document.tableText rows)) →
        ∃ loaded, load fresh = (.ok (), loaded) ∧ loaded.cache = ⟨some path, Document.fieldsOf rows, []⟩ ∧
          loaded.world = fresh.world := by
  obtain ⟨d, hwrite⟩ := Disk.write_of_place hnul hplace
    (.text (Document.encode (Document.object (Document.fieldsOf rows)).pieces))
  obtain ⟨report, hsave⟩ := save_rows hpath hrows hwrite
  rw [Document.encode_fieldsOf] at hwrite
  refine ⟨_, hsave, rfl, Disk.holdsText_write hwrite, fun fresh hfresh hfile => ?_⟩
  obtain ⟨report', hload⟩ := load_eq hfresh (.inr (hfile.holds hkeys)) hkeys
  exact ⟨_, hload, rfl, rfl⟩

/-- Breaks of all kinds, quotes, a backslash, controls and characters of two, three and four bytes, in keys and in values. -/
theorem snapshot_restored_controls :
    let rows := [("https://h/\r\n\"é", "\\\x00\r\x1f\x7f\n"), ("", "\t\x08\x0c\u2028𝄞/"), ("\\u0041", "")]
    let l : Library := ⟨⟨some "c", Document.fieldsOf rows, []⟩, .empty false, ⟨⟨[], [[]], [], true⟩, [], []⟩⟩
    (Table.keys rows).Nodup ∧ (l.world.disk.target "c").place?.isSome = true ∧
      ∃ saved loaded, save l = (.ok (), saved) ∧
        load { saved with cache := .empty (some "c") } = (.ok (), loaded) ∧
        loaded.cache.persisted = Document.fieldsOf rows := by
  intro rows l
  have hkeys : (Table.keys rows).Nodup := by decide
  have hplace : (l.world.disk.target "c").place?.isSome = true := by decide +kernel
  obtain ⟨saved, hsave, -, hfile, hload⟩ := @snapshot_restored l "c" rows hkeys rfl rfl (by decide) hplace
  obtain ⟨loaded, hloaded, hcache, -⟩ := hload { saved with cache := .empty (some "c") } rfl hfile
  exact ⟨hkeys, hplace, saved, loaded, hsave, hloaded, by rw [hcache]⟩

end LazyModules.Library
