import SciArchive.Files.Resource

/-! What a file holds is what is read from it, and what was written last. -/
namespace SciArchive

namespace Disk

variable {d : Disk} {path : String} {content : List UInt8}

theorem entry_of_bytes (h : d.bytes? path = some content) :
    ∃ f : StoredFile, d.entry path = .ok (.file f) ∧ f.bytes = content := by
  rw [bytes?, find?] at h
  cases hentry : d.entry path with
  | error e => simp [hentry] at h
  | ok entry =>
    cases entry with
    | folder time => simp [hentry] at h
    | file f => exact ⟨f, rfl, by simpa [hentry] using h⟩

theorem read_of_bytes (h : d.bytes? path = some content) : Resource.read d path = .ok content := by
  obtain ⟨f, hentry, rfl⟩ := entry_of_bytes h
  rw [Resource.read, Resource.entry, hentry]
  rfl

/-! ### Writing -/

@[simp] theorem isFolder_put (d : Disk) (place other : List String) (bytes : List UInt8)
    (time : FileTime) :
    (d.put place bytes time).isFolder other = d.isFolder other := by
  rw [put, isFolder, isFolder]
  split <;> rfl

theorem lookup_put (d : Disk) (place : List String) (bytes : List UInt8) (time : FileTime) :
    ∃ f, (d.put place bytes time).files.lookup place = some f ∧ f.bytes = bytes := by
  rw [put]
  split <;> exact ⟨_, by rw [List.lookup_cons, beq_self_eq_true], rfl⟩

/-- Where names lead depends on folders alone. -/
theorem walk_put {place start target : List String} {steps : List String} (bytes : List UInt8)
    (time : FileTime)
    (h : d.walk start steps = .ok target) :
    (d.put place bytes time).walk start steps = .ok target := by
  induction steps generalizing start with
  | nil => exact h
  | cons name rest ih =>
    rw [walk] at h ⊢
    rw [isFolder_put]
    split at h
    · cases h
    · rename_i hfolder
      rw [if_neg hfolder]
      split at h
      · cases h
      · rename_i hname
        rw [if_neg hname]
        exact ih h

theorem follow_put {place target : List String} (bytes : List UInt8) (time : FileTime)
    (h : d.follow path = .ok target) : (d.put place bytes time).follow path = .ok target := by
  rw [follow] at h ⊢
  split at h
  · cases h
  rename_i hnull
  rw [if_neg hnull]
  split at h
  · cases h
  rename_i hempty
  rw [if_neg hempty]
  split at h
  · cases h
  rename_i hlong
  rw [if_neg hlong]
  exact walk_put bytes time h

/-- A file that was written holds what was written. -/
theorem bytes?_write {d' : Disk} {bytes : List UInt8} (h : d.write path bytes = .ok d') :
    d'.bytes? path = some bytes := by
  rw [write] at h
  cases hfollow : d.follow path with
  | error e => simp [hfollow] at h
  | ok place =>
    simp only [hfollow] at h
    split at h
    · cases h
    rename_i hfile
    split at h
    · cases h
    rename_i hwants
    cases h
    have hplace : (d.put place bytes .now).place path = .ok place := by
      rw [Disk.place, follow_put bytes .now hfollow]
      simp [hwants]
    have hnotFolder : d.isFolder place = false := by simpa using fun hfolder => hfile (Or.inl hfolder)
    obtain ⟨f, hlookup, hbytes⟩ := lookup_put d place bytes .now
    have hentry : (d.put place bytes .now).entry path = .ok (.file f) := by
      rw [entry, hplace]
      simp [hnotFolder, hlookup]
    rw [bytes?, find?, hentry, ← hbytes]
    rfl

end Disk
end SciArchive
