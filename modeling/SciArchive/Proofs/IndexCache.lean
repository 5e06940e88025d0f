import SciArchive.Index.Cache
import SciArchive.Proofs.Disk
import SciArchive.Proofs.IndexReload

/-! Index files as a cache: whatever happens to the file between calls, an index that is come by is
as good as one built anew. -/
namespace SciArchive.SecondaryIndex

/-- An index that is loaded is what its file is read as. -/
theorem loadFresh?_some {d : Disk} {path : String} {sources : List String} {ix : SecondaryIndex}
    (h : loadFresh? d path sources = some ix) :
    ∃ bytes, d.bytes? path = some bytes ∧ ofBytes bytes = .ok ix := by
  rw [loadFresh?] at h
  cases hfind : d.find? path with
  | none => simp [hfind] at h
  | some file =>
    simp only [hfind] at h
    split at h
    · cases h
    have hbytes : d.bytes? path = some file.bytes := by rw [Disk.bytes?, hfind]; rfl
    refine ⟨file.bytes, hbytes, ?_⟩
    obtain ⟨f, hentry, hf⟩ := Disk.entry_of_bytes hbytes
    have hread : read d path = (ofBytes file.bytes).mapError .invalidIndex := by
      rw [read, Resource.entry, hentry, ← hf]
      rfl
    rw [hread] at h
    cases hix : ofBytes file.bytes with
    | error flaw =>
      rw [hix] at h
      cases h
    | ok found =>
      rw [hix] at h
      exact congrArg Except.ok (Option.some.inj h)

/-- A file keeps what it held, or it holds the index that was built. -/
theorem bytes?_buildAndKeep {d : Disk} {path : String} {persist : Bool}
    {build : Except Fault SecondaryIndex} :
    (buildAndKeep d path persist build).2.bytes? path = d.bytes? path ∨
      ∃ ix, build = .ok ix ∧ (buildAndKeep d path persist build).2.bytes? path = some ix.toBytes := by
  cases build with
  | error e => exact .inl rfl
  | ok ix =>
    cases persist with
    | false => exact .inl rfl
    | true =>
      cases hwrite : d.write path ix.toBytes with
      | error e =>
        have hfailed : ix.write d path = .error (.cannotOpen path e) := by
          rw [write, hwrite]
          rfl
        left
        simp [buildAndKeep, hfailed, Except.toOption]
      | ok d' =>
        have hdone : ix.write d path = .ok d' := by
          rw [write, hwrite]
          rfl
        refine .inr ⟨ix, rfl, ?_⟩
        simp only [buildAndKeep, hdone, Except.toOption, if_true, Option.getD_some]
        exact Disk.bytes?_write hwrite

/-! ### One call -/

section
variable {d : Disk} {primary : String} {companions : List String} {config : IndexConfig}
  {build : Except Fault SecondaryIndex}

/-- There is no index if none is wanted; else it was loaded or built. -/
theorem obtain_ok {o : Obtained} (h : (obtain d primary companions config build).1 = .ok o) :
    (config.policy = .disabled ∧ o.index? = none) ∨
      (config.policy ≠ .disabled ∧ ∃ ix, o.index? = some ix ∧
        (build = .ok ix ∨
          ∃ bytes, d.bytes? (config.indexPath primary) = some bytes ∧ ofBytes bytes = .ok ix)) := by
  have hbuilt {persist : Bool}
      (h : (buildAndKeep d (config.indexPath primary) persist build).1 = .ok o) :
      ∃ ix, o.index? = some ix ∧ build = .ok ix := by
    cases build with
    | error e => cases h
    | ok ix => cases h; exact ⟨ix, rfl, rfl⟩
  rw [obtain] at h
  cases hpolicy : config.policy with
  | disabled =>
    rw [hpolicy] at h
    cases h
    exact .inl ⟨rfl, rfl⟩
  | rebuild =>
    rw [hpolicy] at h
    obtain ⟨ix, hix, hbuild⟩ := hbuilt h
    exact .inr ⟨nofun, ix, hix, .inl hbuild⟩
  | auto =>
    rw [hpolicy] at h
    simp only at h
    cases hload : loadFresh? d (config.indexPath primary) (primary :: companions) with
    | none =>
      rw [hload] at h
      obtain ⟨ix, hix, hbuild⟩ := hbuilt h
      exact .inr ⟨nofun, ix, hix, .inl hbuild⟩
    | some ix =>
      rw [hload] at h
      cases h
      exact .inr ⟨nofun, ix, rfl, .inr (loadFresh?_some hload)⟩

/-- Nothing but a build fails. -/
theorem obtain_error {e : Fault} (h : (obtain d primary companions config build).1 = .error e) :
    config.policy ≠ .disabled ∧ build = .error e := by
  have hbuilt {persist : Bool}
      (h : (buildAndKeep d (config.indexPath primary) persist build).1 = .error e) :
      build = .error e := by
    cases build with
    | error e' => cases h; rfl
    | ok ix => cases h
  rw [obtain] at h
  cases hpolicy : config.policy with
  | disabled =>
    rw [hpolicy] at h
    cases h
  | rebuild =>
    rw [hpolicy] at h
    exact ⟨nofun, hbuilt h⟩
  | auto =>
    rw [hpolicy] at h
    simp only at h
    split at h
    · cases h
    · exact ⟨nofun, hbuilt h⟩

/-- The index file keeps what it held, or it holds the index that was built. -/
theorem bytes?_obtain (d : Disk) (primary : String) (companions : List String) (config : IndexConfig)
    (build : Except Fault SecondaryIndex) :
    (obtain d primary companions config build).2.bytes? (config.indexPath primary) =
        d.bytes? (config.indexPath primary) ∨
      ∃ ix, build = .ok ix ∧
        (obtain d primary companions config build).2.bytes? (config.indexPath primary) =
          some ix.toBytes := by
  rw [obtain]
  cases config.policy with
  | disabled => exact .inl rfl
  | rebuild => exact bytes?_buildAndKeep
  | auto =>
    simp only
    split
    · exact .inl rfl
    · exact bytes?_buildAndKeep

end

/-! ### Runs of calls -/

/-- A call for the index: the disk that it finds, its policy, whether it keeps what it builds, and
what a build would give. -/
structure Request where
  disk : Disk
  policy : IndexPolicy
  persist : Bool
  build : Except Fault SecondaryIndex

namespace Request

variable (primary : String) (companions : List String) (suffix : String)

/-- What a call answers, and the disk that it leaves. -/
def outcome (c : Request) : Except Fault Obtained × Disk :=
  obtain c.disk primary companions ⟨c.policy, suffix, c.persist⟩ c.build

/-- What the index file holds after a call. -/
def left? (c : Request) : Option (List UInt8) :=
  (c.outcome primary companions suffix).2.bytes? (primary ++ suffix)

/-- What the index file may hold when a call is made: nothing, what an earlier call left, or bytes
that are no index. -/
def Admits (earlier : List Request) (c : Request) : Prop :=
  c.disk.bytes? (primary ++ suffix) = none ∨
    (∃ e ∈ earlier, c.disk.bytes? (primary ++ suffix) = e.left? primary companions suffix) ∨
    ∃ bytes flaw, c.disk.bytes? (primary ++ suffix) = some bytes ∧ ofBytes bytes = .error flaw

/-- Runs of calls, the last one in front. The files that are indexed do not change, so that every
build that succeeds gives the same index. -/
inductive Run (fresh : SecondaryIndex) : List Request → Prop where
  | start : Run fresh []
  | call {earlier : List Request} {c : Request} (run : Run fresh earlier)
      (admits : c.Admits primary companions suffix earlier)
      (build : ∀ ix, c.build = .ok ix → ix = fresh) :
      Run fresh (c :: earlier)

/-- A call gives no index exactly if that is wanted; else it gives the entries of a fresh build,
unless the build itself fails. -/
structure Sound (fresh : SecondaryIndex) (c : Request) : Prop where
  none_iff : (∃ o, (c.outcome primary companions suffix).1 = .ok o ∧ o.index? = none) ↔
    c.policy = .disabled
  found : ∀ o ix, (c.outcome primary companions suffix).1 = .ok o → o.index? = some ix →
    ix.entries = fresh.entries ∧ ∀ key, ix.get? key = fresh.get? key
  given : c.policy ≠ .disabled → (∃ ix, c.build = .ok ix) →
    ∃ o ix, (c.outcome primary companions suffix).1 = .ok o ∧ o.index? = some ix
  error : ∀ e, (c.outcome primary companions suffix).1 = .error e → c.build = .error e

variable {primary companions suffix}

/-- Bytes that are read as an index are those of `fresh`. -/
def Holds (fresh : SecondaryIndex) (held : Option (List UInt8)) : Prop :=
  ∀ bytes ix, held = some bytes → ofBytes bytes = .ok ix → bytes = fresh.toBytes

/-- What one call keeps. -/
theorem sound_of_holds {fresh : SecondaryIndex} {c : Request} (hfresh : fresh.Storable)
    (hholds : Holds fresh (c.disk.bytes? (primary ++ suffix)))
    (hbuild : ∀ ix, c.build = .ok ix → ix = fresh) :
    c.Sound primary companions suffix fresh ∧ Holds fresh (c.left? primary companions suffix) := by
  have hok {o : Obtained} (h : (c.outcome primary companions suffix).1 = .ok o) := obtain_ok h
  have herror {e : Fault} (h : (c.outcome primary companions suffix).1 = .error e) := obtain_error h
  have hentries {ix : SecondaryIndex} (h : c.build = .ok ix ∨
      ∃ bytes, c.disk.bytes? (primary ++ suffix) = some bytes ∧ ofBytes bytes = .ok ix) :
      ix.entries = fresh.entries := by
    rcases h with h | ⟨bytes, hbytes, hix⟩
    · rw [hbuild ix h]
    · rw [hholds bytes ix hbytes hix, ofBytes_toBytes hfresh] at hix
      cases hix
      rfl
  refine ⟨⟨⟨?_, ?_⟩, ?_, ?_, fun e h => (herror h).2⟩, ?_⟩
  · rintro ⟨o, ho, hnone⟩
    rcases hok ho with ⟨hpolicy, -⟩ | ⟨-, ix, hix, -⟩
    · exact hpolicy
    · rw [hnone] at hix
      cases hix
  · intro hpolicy
    refine ⟨.disabled, ?_, rfl⟩
    rw [outcome, obtain]
    simp only [hpolicy]
  · intro o ix ho hix
    rcases hok ho with ⟨-, hnone⟩ | ⟨-, found, hfound, hfrom⟩
    · rw [hnone] at hix
      cases hix
    · rw [hfound] at hix
      cases hix
      exact ⟨hentries hfrom, get?_of_entries (hentries hfrom)⟩
  · rintro hpolicy ⟨ix, hix⟩
    cases hanswer : (c.outcome primary companions suffix).1 with
    | error e =>
      rw [(herror hanswer).2] at hix
      cases hix
    | ok o =>
      rcases hok hanswer with ⟨hdisabled, -⟩ | ⟨-, found, hfound, -⟩
      · exact absurd hdisabled hpolicy
      · exact ⟨o, found, rfl, hfound⟩
  · intro bytes ix hbytes hix
    rcases bytes?_obtain c.disk primary companions ⟨c.policy, suffix, c.persist⟩ c.build with
      hkept | ⟨built, hbuilt, hwritten⟩
    · exact hholds bytes ix (hkept.symm.trans hbytes) hix
    · have := hwritten.symm.trans hbytes
      rw [hbuild built hbuilt] at this
      exact (Option.some.inj this).symm

/-- Through any run, whatever the policies, the times and the damage to the index file, every call
does what it should. -/
theorem sound_of_run {fresh : SecondaryIndex} (hfresh : fresh.Storable) {calls : List Request}
    (h : Run primary companions suffix fresh calls) :
    ∀ c ∈ calls, c.Sound primary companions suffix fresh := by
  have hinvariant : ∀ c ∈ calls, c.Sound primary companions suffix fresh ∧
      Holds fresh (c.left? primary companions suffix) := by
    induction h with
    | start => exact fun c hc => nomatch hc
    | @call earlier c run admits build ih =>
      have hholds : Holds fresh (c.disk.bytes? (primary ++ suffix)) := by
        intro bytes ix hbytes hix
        rcases admits with hnone | ⟨e, he, hleft⟩ | ⟨refused, flaw, hrefused, hflaw⟩
        · rw [hnone] at hbytes
          cases hbytes
        · exact (ih e he).2 bytes ix (hleft.symm.trans hbytes) hix
        · rw [hrefused] at hbytes
          cases hbytes
          rw [hflaw] at hix
          cases hix
      intro c' hc'
      rcases List.mem_cons.mp hc' with rfl | hc'
      · exact sound_of_holds hfresh hholds build
      · exact ih c' hc'
  exact fun c hc => (hinvariant c hc).1

/-- An index is built and kept, found again although a build would fail now, and built anew when its
file is damaged. -/
theorem sound_of_run_kept_found_damaged :
    let fresh : SecondaryIndex :=
      (IndexBuilder.run [.observe "A" 0, .observe "B" 9, .observe "A" 17]).finish
    let kept : Request := ⟨{}, .rebuild, true, .ok fresh⟩
    let found : Request := ⟨(kept.outcome "data" [] ".cdmx").2, .auto, true, .error .notText⟩
    let damaged : Request := ⟨({} : Disk).lay "data.cdmx" [0x43] .now, .auto, false, .ok fresh⟩
    ∀ c ∈ [damaged, found, kept], c.Sound "data" [] ".cdmx" fresh := by
  intro fresh kept found damaged
  have hstorable : fresh.Storable := IndexBuilder.storable_run (by decide) (by decide +kernel)
  have hkept : Run "data" [] ".cdmx" fresh [kept] :=
    .call .start (.inl (by decide +kernel)) fun ix h => (Except.ok.inj h).symm
  have hfound : Run "data" [] ".cdmx" fresh [found, kept] :=
    .call hkept (.inr (.inl ⟨kept, List.mem_singleton_self _, rfl⟩)) nofun
  have hdamaged : damaged.Admits "data" [] ".cdmx" [found, kept] :=
    .inr (.inr ⟨[0x43], .badMagic, by decide +kernel, by decide +kernel⟩)
  exact sound_of_run hstorable (.call hfound hdamaged fun ix h => (Except.ok.inj h).symm)

end Request
end SciArchive.SecondaryIndex
