import SciArchive.Proofs.BlockFiles
import SciArchive.Proofs.SteadyFiles
import SciArchive.Proofs.StreamCalls

/-! Runs of calls on a stream that gives known records. What a call answers follows from the answers before
it, and a stream that begins again gives the same again. -/
namespace SciArchive.Stream

/-! ### Answers -/

/-- The answer to a call. -/
inductive Reply where
  | more (answer : Except Fault Bool)
  | record (answer : Except Fault Record)
  | begun (answer : Except Fault Unit)

namespace Reply

def isFound : Reply → Bool
  | more (.ok true) => true
  | _ => false

/-- No more records, or a failure to find one. -/
def isEnd : Reply → Bool
  | more (.ok true) => false
  | more _ => true
  | _ => false

def isTaken : Reply → Bool
  | record (.ok _) => true
  | _ => false

def isBegun : Reply → Bool
  | begun (.ok _) => true
  | _ => false

/-- The answer that no record was found, or the failure. -/
def closing (e : Option Fault) : Reply := more (e.elim (.ok false) .error)

@[simp] theorem isFound_closing (e : Option Fault) : (closing e).isFound = false := by cases e <;> rfl

@[simp] theorem isEnd_closing (e : Option Fault) : (closing e).isEnd = true := by cases e <;> rfl

@[simp] theorem isTaken_closing (e : Option Fault) : (closing e).isTaken = false := rfl

@[simp] theorem isBegun_closing (e : Option Fault) : (closing e).isBegun = false := rfl

end Reply

/-- When a call is made: what the disk holds then, and which resources are closed. -/
structure Moment where
  disk : Disk
  ledger : Ledger

/-- What a call answers, and the stream behind it. The stream goes on from what its file then has. -/
def respond (m : Moment) (s : Stream) : Call → Reply × Stream
  | .hasNext =>
    let r := (s.refresh m.disk).hasNext m.ledger
    (.more r.1, r.2)
  | .next =>
    let r := (s.refresh m.disk).next m.ledger
    (.record r.1, r.2)
  | .reset =>
    let r := (s.refresh m.disk).reset m.ledger
    (.begun r.1, r.2)

/-- The answers to a run of calls, and the stream behind it. The latest call is the first, and so is its
answer. -/
def after (s : Stream) : List (Moment × Call) → List Reply × Stream
  | [] => ([], s)
  | c :: earlier =>
    let answer := (after s earlier).2.respond c.1 c.2
    (answer.1 :: (after s earlier).1, answer.2)

/-- The resource of the stream is open, and its file still has the same bytes. -/
structure Steady (content : List UInt8) (s : Stream) (m : Moment) : Prop where
  isOpen : m.ledger.isClosed s.resource = false
  held : s.file.bind m.disk.held? = some content
  size : s.resource.size m.disk = .ok content.length

/-! ### What the answers before tell -/

/-- The number of records taken since the last beginning. -/
def takenIn (past : List Reply) : Nat := (past.takeWhile fun r => !r.isBegun).countP Reply.isTaken

/-- A record was found since the last one was taken and the last beginning. -/
def foundIn (past : List Reply) : Bool :=
  (past.takeWhile fun r => !r.isBegun && !r.isTaken).any Reply.isFound

/-- No record was found, or not without failure, since the last beginning. -/
def endedIn (past : List Reply) : Bool := (past.takeWhile fun r => !r.isBegun).any Reply.isEnd

@[simp] theorem takenIn_nil : takenIn [] = 0 := rfl

@[simp] theorem foundIn_nil : foundIn [] = false := rfl

@[simp] theorem endedIn_nil : endedIn [] = false := rfl

section
variable (r : Reply) (past : List Reply)

theorem takenIn_cons :
    takenIn (r :: past) = if r.isBegun then 0 else takenIn past + if r.isTaken then 1 else 0 := by
  cases h : r.isBegun <;> simp [takenIn, h, List.countP_cons]

theorem foundIn_cons :
    foundIn (r :: past) = if r.isBegun || r.isTaken then false else r.isFound || foundIn past := by
  cases hbegun : r.isBegun <;> cases htaken : r.isTaken <;> simp [foundIn, hbegun, htaken]

theorem endedIn_cons :
    endedIn (r :: past) = if r.isBegun then false else r.isEnd || endedIn past := by
  cases h : r.isBegun <;> simp [endedIn, h]

end

/-- What differs before a run but tells the same of taking and finding tells the same behind it. -/
theorem takenIn_foundIn_append {past past' : List Reply} (htaken : takenIn past = takenIn past')
    (hfound : foundIn past = foundIn past') (replies : List Reply) :
    takenIn (replies ++ past) = takenIn (replies ++ past') ∧
      foundIn (replies ++ past) = foundIn (replies ++ past') := by
  induction replies with
  | nil => exact ⟨htaken, hfound⟩
  | cons r replies ih =>
    simp only [List.cons_append, takenIn_cons, foundIn_cons, ih.1, ih.2, and_self]

/-! ### Where a stream stands -/

/-- The stream began as `start` in a file with these bytes, which gives `all` and closes with `first`, then
with `later`. Since then it answered `past`, and it has `upcoming` yet to find. -/
structure Plays (content : List UInt8) (all : List Record) (first later : Option Fault) (start : Stream)
    (past : List Reply) (upcoming : List Record) (s : Stream) : Prop where
  resource : s.resource = start.resource
  file : s.file = start.file
  steady : s.feed.Together content s.feed
  rewind : s.feed.rewind = start.feed
  taken : s.taken = takenIn past
  found : s.pending.isSome = foundIn past
  within : s.taken ≤ all.length
  order : all.drop s.taken = s.pending.toList ++ upcoming
  gives : s.feed.Gives (if endedIn past then later else first) later
    (s.taken + s.pending.toList.length) upcoming
  ended : endedIn past = true → s.pending = none ∧ upcoming = []

/-- A stream that was just opened or begun again, in a file with these bytes. -/
structure Fresh (content : List UInt8) (s : Stream) : Prop where
  pending : s.pending = none
  taken : s.taken = 0
  steady : s.feed.Together content s.feed
  rewind : s.feed.rewind = s.feed

variable {content : List UInt8} {all : List Record} {first later : Option Fault} {start s : Stream}
  {past : List Reply} {upcoming : List Record} {l : Ledger} {m : Moment}

theorem Fresh.plays (h : s.Fresh content) (hgives : s.feed.Gives first later 0 all) :
    Plays content all first later s [] all s where
  resource := rfl
  file := rfl
  steady := h.steady
  rewind := h.rewind
  taken := h.taken
  found := by rw [h.pending]; rfl
  within := by rw [h.taken]; exact Nat.zero_le _
  order := by rw [h.taken, h.pending]; rfl
  gives := by rw [h.taken, h.pending]; exact hgives
  ended := by rintro ⟨⟩

/-- Where the file still has the same bytes, the stream goes on as before. -/
theorem Plays.refresh (h : Plays content all first later start past upcoming s)
    (hm : start.Steady content m) :
    Plays content all first later start past upcoming (s.refresh m.disk) ∧
      m.ledger.isClosed (s.refresh m.disk).resource = false := by
  have hsame : s.refresh m.disk = { s with feed := s.feed.refresh content (.ok content.length) } := by
    simp only [Stream.refresh, h.file, h.resource, hm.held, hm.size]
  have htogether := h.steady.refresh
  rw [hsame]
  refine ⟨?_, (congrArg m.ledger.isClosed h.resource).trans hm.isOpen⟩
  exact { h with
    steady := htogether.right
    rewind := htogether.rewind_eq.trans h.rewind
    gives := htogether.gives h.gives }

section
variable (h : Plays content all first later start past upcoming s) (hopen : l.isClosed s.resource = false)
include h hopen

theorem Plays.hasNext : ∃ upcoming,
    Plays content all first later start (.more (s.hasNext l).1 :: past) upcoming (s.hasNext l).2 := by
  have hgives := h.gives
  have horder := h.order
  cases hpending : s.pending with
  | some r =>
    have hsome : foundIn past = true := by rw [← h.found, hpending]; rfl
    rw [hasNext_pending hopen hpending]
    refine ⟨upcoming, ?_⟩
    exact { h with
      taken := by simpa [takenIn_cons, Reply.isBegun, Reply.isTaken] using h.taken
      found := by simp [foundIn_cons, Reply.isBegun, Reply.isTaken, Reply.isFound, hpending]
      gives := by simpa [endedIn_cons, Reply.isBegun, Reply.isEnd] using hgives
      ended := by simpa [endedIn_cons, Reply.isBegun, Reply.isEnd] using h.ended }
  | none =>
    rw [hpending] at hgives horder
    cases upcoming with
    | cons r upcoming =>
      have hnotEnded : endedIn past = false := by
        by_contra hended
        have hnone := (h.ended (by simpa using hended)).2
        cases hnone
      rw [hasNext_found hopen hpending hgives.1]
      refine ⟨upcoming, ?_⟩
      exact {
        resource := h.resource
        file := h.file
        steady := (h.steady.advance _).2
        rewind := (Feed.rewind_advance _ _).trans h.rewind
        taken := by simpa [takenIn_cons, Reply.isBegun, Reply.isTaken] using h.taken
        found := by simp [foundIn_cons, Reply.isBegun, Reply.isTaken, Reply.isFound]
        within := h.within
        order := horder
        gives := by simpa [endedIn_cons, Reply.isBegun, Reply.isEnd] using hgives.2
        ended := by simp [endedIn_cons, Reply.isBegun, Reply.isEnd, hnotEnded] }
    | nil =>
      have hnotFound : foundIn past = false := by rw [← h.found, hpending]; rfl
      have hnow := hasNext_closing hopen hpending hgives.now
      have hreply : Reply.more (s.hasNext l).1 = .closing (if endedIn past then later else first) := by
        rw [hnow]
        rfl
      rw [hreply, hnow]
      refine ⟨[], ?_⟩
      exact {
        resource := h.resource
        file := h.file
        steady := (h.steady.advance _).2
        rewind := (Feed.rewind_advance _ _).trans h.rewind
        taken := by simpa [takenIn_cons] using h.taken
        found := by simp [foundIn_cons, hnotFound, hpending]
        within := h.within
        order := by simpa [hpending] using horder
        gives := by
          have hnext := hgives.next
          simpa [Feed.Gives, endedIn_cons, hpending] using hnext
        ended := fun _ => ⟨hpending, rfl⟩ }

theorem Plays.next : ∃ upcoming,
    Plays content all first later start (.record (s.next l).1 :: past) upcoming (s.next l).2 := by
  have hgives := h.gives
  have horder := h.order
  cases hpending : s.pending with
  | none =>
    rw [next_none hopen hpending]
    refine ⟨upcoming, ?_⟩
    exact { h with
      taken := by simpa [takenIn_cons, Reply.isBegun, Reply.isTaken] using h.taken
      found := by simpa [foundIn_cons, Reply.isBegun, Reply.isTaken, Reply.isFound] using h.found
      gives := by simpa [endedIn_cons, Reply.isBegun, Reply.isEnd] using hgives
      ended := by simpa [endedIn_cons, Reply.isBegun, Reply.isEnd] using h.ended }
  | some r =>
    rw [hpending] at hgives horder
    have hnotEnded : endedIn past = false := by
      by_contra hended
      have hnone := (h.ended (by simpa using hended)).1
      rw [hpending] at hnone
      cases hnone
    have hlength := congrArg List.length horder
    simp only [List.length_drop, List.length_append, Option.toList_some, List.length_singleton] at hlength
    have hrest : all.drop (s.taken + 1) = upcoming := by
      rw [← List.drop_drop, horder]
      rfl
    rw [next_some hopen hpending]
    refine ⟨upcoming, ?_⟩
    exact {
      resource := h.resource
      file := h.file
      steady := h.steady
      rewind := h.rewind
      taken := by simpa [takenIn_cons, Reply.isBegun, Reply.isTaken] using h.taken
      found := by simp [foundIn_cons, Reply.isBegun, Reply.isTaken]
      within := by
        show s.taken + 1 ≤ all.length
        omega
      order := hrest
      gives := by simpa [endedIn_cons, Reply.isBegun, Reply.isEnd] using hgives
      ended := by simp [endedIn_cons, Reply.isBegun, Reply.isEnd, hnotEnded] }

theorem Plays.reset (hstart : start.Fresh content) (hgives : start.feed.Gives first later 0 all) :
    s.reset l = (.ok (), start) ∧
      Plays content all first later start (.begun (s.reset l).1 :: past) all (s.reset l).2 := by
  have hreset : s.reset l = (.ok (), start) := by
    rw [reset_open hopen, h.rewind, h.resource, h.file, ← hstart.pending, ← hstart.taken]
  have hplays := hstart.plays hgives
  rw [hreset]
  refine ⟨rfl, ?_⟩
  exact { hplays with
    taken := by simpa [takenIn_cons, Reply.isBegun, Reply.isTaken] using hplays.taken
    found := by simpa [foundIn_cons, Reply.isBegun, Reply.isTaken, Reply.isFound] using hplays.found
    gives := by simpa [endedIn_cons, Reply.isBegun, Reply.isEnd] using hplays.gives
    ended := by simp [endedIn_cons, Reply.isBegun] }

end

/-- Every call leaves the stream standing in the same run. -/
theorem Plays.respond (hstart : start.Fresh content) (hgives : start.feed.Gives first later 0 all)
    (h : Plays content all first later start past upcoming s) (hm : start.Steady content m) (c : Call) :
    ∃ upcoming, Plays content all first later start ((s.respond m c).1 :: past) upcoming
      (s.respond m c).2 := by
  obtain ⟨hnow, hopen⟩ := h.refresh hm
  cases c with
  | hasNext => exact hnow.hasNext hopen
  | next => exact hnow.next hopen
  | reset => exact ⟨all, (hnow.reset hopen hstart hgives).2⟩

/-- So does every run of calls. -/
theorem Plays.after (hstart : start.Fresh content) (hgives : start.feed.Gives first later 0 all)
    (h : Plays content all first later start past upcoming s) (calls : List (Moment × Call))
    (hcalls : ∀ c ∈ calls, start.Steady content c.1) :
    ∃ upcoming, Plays content all first later start ((s.after calls).1 ++ past) upcoming
      (s.after calls).2 := by
  induction calls with
  | nil => exact ⟨upcoming, h⟩
  | cons c calls ih =>
    rw [List.forall_mem_cons] at hcalls
    obtain ⟨_, hearlier⟩ := ih hcalls.2
    exact hearlier.respond hstart hgives hcalls.1 c.2

/-! ### What a call answers -/

section
variable (h : Plays content all first later start past upcoming s) (hopen : l.isClosed s.resource = false)
include h hopen

theorem Plays.hasNext_eq :
    (s.hasNext l).1 = if takenIn past < all.length then .ok true
      else (if endedIn past then later else first).elim (.ok false) .error := by
  have hgives := h.gives
  have hlength := congrArg List.length h.order
  simp only [List.length_drop, List.length_append] at hlength
  rw [← h.taken]
  cases hpending : s.pending with
  | some r =>
    rw [hpending, Option.toList_some, List.length_singleton] at hlength
    rw [hasNext_pending hopen hpending, if_pos (by omega)]
  | none =>
    rw [hpending] at hgives hlength
    cases upcoming with
    | cons r upcoming =>
      rw [List.length_cons] at hlength
      rw [hasNext_found hopen hpending hgives.1, if_pos (by omega)]
    | nil =>
      have hall : ¬ s.taken < all.length := by
        simp only [Option.toList_none, List.length_nil] at hlength
        omega
      rw [hasNext_closing hopen hpending hgives.now, if_neg hall]

theorem Plays.next_eq :
    (s.next l).1 = if foundIn past then
        (match all[takenIn past]? with
        | some r => .ok r
        | none => .error .noRecordReady)
      else .error .noRecordReady := by
  rw [← h.found, ← h.taken]
  cases hpending : s.pending with
  | none =>
    rw [next_none hopen hpending]
    rfl
  | some r =>
    have hfirst : all[s.taken]? = some r := by
      rw [← List.head?_drop, h.order, hpending]
      rfl
    rw [next_some hopen hpending, hfirst]
    rfl

end

/-- Streams in runs of the same records answer the same, if the same is taken and found. -/
theorem Plays.after_congr {e : Option Fault} {s' : Stream} {past' : List Reply} {upcoming' : List Record}
    (hstart : start.Fresh content) (hgives : start.feed.Gives e e 0 all)
    (h : Plays content all e e start past upcoming s) (h' : Plays content all e e start past' upcoming' s')
    (htaken : takenIn past = takenIn past') (hfound : foundIn past = foundIn past')
    (calls : List (Moment × Call)) (hcalls : ∀ c ∈ calls, start.Steady content c.1) :
    (s.after calls).1 = (s'.after calls).1 := by
  induction calls with
  | nil => rfl
  | cons c calls ih =>
    rw [List.forall_mem_cons] at hcalls
    have hreplies := ih hcalls.2
    obtain ⟨_, hs⟩ := h.after hstart hgives calls hcalls.2
    obtain ⟨_, hs'⟩ := h'.after hstart hgives calls hcalls.2
    obtain ⟨hnow, hopen⟩ := hs.refresh hcalls.1
    obtain ⟨hnow', hopen'⟩ := hs'.refresh hcalls.1
    obtain ⟨hsameTaken, hsameFound⟩ := takenIn_foundIn_append htaken hfound (s.after calls).1
    rw [← hreplies] at hnow'
    have hreply : ((s.after calls).2.respond c.1 c.2).1 = ((s'.after calls).2.respond c.1 c.2).1 := by
      cases c.2 with
      | hasNext =>
        simp only [Stream.respond, hnow.hasNext_eq hopen, hnow'.hasNext_eq hopen', hsameTaken, ite_self]
      | next =>
        simp only [Stream.respond, hnow.next_eq hopen, hnow'.next_eq hopen', hsameTaken, hsameFound]
      | reset => simp only [Stream.respond, reset_open hopen, reset_open hopen']
    rw [Stream.after, Stream.after, hreply, hreplies]

/-! ### Replaying -/

/-- What the calls on a stream of known records do, when it answered `past`: `next` takes the record that
was found, in order; `hasNext` finds one as long as there is one, then answers the ending, and does nothing
new when it is repeated. -/
structure Tells (content : List UInt8) (all : List Record) (ending : Option Fault) (l : Ledger)
    (past : List Reply) (s : Stream) : Prop where
  index : s.taken = takenIn past
  taken_iff : (∃ r, (s.next l).1 = .ok r) ↔ foundIn past = true
  record : ∀ r, (s.next l).1 = .ok r → all[takenIn past]? = some r
  refused : foundIn past = false → s.next l = (.error .noRecordReady, s)
  more : (s.hasNext l).1 = if takenIn past < all.length then .ok true else ending.elim (.ok false) .error
  again : ∀ m, s.Steady content m → ((s.hasNext l).2.respond m .hasNext).1 = .more (s.hasNext l).1 ∧
    ∀ calls : List (Moment × Call), (∀ c ∈ calls, s.Steady content c.1) →
      (((s.hasNext l).2.respond m .hasNext).2.after calls).1 = ((s.hasNext l).2.after calls).1
  begins : (s.reset l).1 = .ok ()

/-- After every run of calls while the resource is open and its file has the same bytes, a stream of known
records does as told. -/
def Replays (content : List UInt8) (all : List Record) (ending : Option Fault) (s : Stream) : Prop :=
  ∀ calls : List (Moment × Call), (∀ c ∈ calls, s.Steady content c.1) → ∀ m, s.Steady content m →
    Tells content all ending m.ledger (s.after calls).1 ((s.after calls).2.refresh m.disk)

theorem Plays.start_steady (h : Plays content all first later start past upcoming s)
    (hm : s.Steady content m) : start.Steady content m := by
  obtain ⟨hopen, hheld, hsize⟩ := hm
  rw [h.resource] at hopen hsize
  rw [h.file] at hheld
  exact ⟨hopen, hheld, hsize⟩

theorem Plays.tells {e : Option Fault} (hstart : start.Fresh content) (hgives : start.feed.Gives e e 0 all)
    (h : Plays content all e e start past upcoming s) (hopen : l.isClosed s.resource = false) :
    Tells content all e l past s := by
  have hmore : (s.hasNext l).1 = if takenIn past < all.length then .ok true
      else e.elim (.ok false) .error := by
    rw [h.hasNext_eq hopen, ite_self]
  refine { index := h.taken, more := hmore, taken_iff := ?_, record := ?_, refused := ?_, again := ?_,
           begins := ?_ }
  · rw [← h.found]
    cases hpending : s.pending with
    | none => simp [next_none hopen hpending]
    | some r => simp [next_some hopen hpending]
  · intro r hr
    rw [h.next_eq hopen] at hr
    grind
  · intro hnone
    rw [← h.found, Option.isSome_eq_false_iff, Option.isNone_iff_eq_none] at hnone
    exact next_none hopen hnone
  · intro m hm
    obtain ⟨_, honce⟩ := h.hasNext hopen
    obtain ⟨hnow, hnowOpen⟩ := honce.refresh (h.start_steady hm)
    have htaken : takenIn (.more (s.hasNext l).1 :: past) = takenIn past := by
      simp [takenIn_cons, Reply.isBegun, Reply.isTaken]
    have hsame : ((s.hasNext l).2.respond m .hasNext).1 = .more (s.hasNext l).1 := by
      simp only [Stream.respond]
      rw [hnow.hasNext_eq hnowOpen, ite_self, htaken, hmore]
    obtain ⟨_, htwice⟩ := honce.respond hstart hgives (h.start_steady hm) .hasNext
    refine ⟨hsame, fun calls hcalls => ?_⟩
    refine htwice.after_congr hstart hgives honce ?_ ?_ calls fun c hc => h.start_steady (hcalls c hc)
    · rw [hsame]
      simp [takenIn_cons, Reply.isBegun, Reply.isTaken]
    · rw [hsame]
      simp [foundIn_cons, Reply.isBegun, Reply.isTaken]
  · rw [reset_open hopen]

theorem Fresh.replays {e : Option Fault} (h : s.Fresh content) (hgives : s.feed.Gives e e 0 all) :
    s.Replays content all e := by
  intro calls hcalls m hm
  obtain ⟨_, hplays⟩ := (h.plays hgives).after h hgives calls hcalls
  rw [List.append_nil] at hplays
  obtain ⟨hnow, hopen⟩ := hplays.refresh hm
  exact hnow.tells h hgives hopen

/-! ### Opening -/

section
variable {d : Disk} {r : Resource} {offset : Nat} {onFile : List UInt8 → Feed} {onFolder : Feed}

variable (hcontent : d.bytes? r.path = some content)
include hcontent

/-- What is opened at an offset in a file is open, and begins with the bytes of the file. -/
theorem openAt_ok (h : openAt d l r offset onFile onFolder = .ok s) :
    l.isClosed r = false ∧ ∃ file, s = { resource := r, file, feed := onFile content } := by
  obtain ⟨f, hentry, rfl⟩ := Disk.entry_of_bytes hcontent
  cases hopen : l.isClosed r with
  | true => simp [openAt, Resource.reopen, Ledger.check, hopen, Except.bind] at h
  | false =>
    rw [openAt, Resource.reopen, Ledger.check, hopen, Resource.entry, hentry] at h
    have hbegins : (if (DiskEntry.file f).reach < offset then .error (Fault.cannotRead .offsetTooLarge)
        else .ok { resource := r, file := some f.number, feed := onFile f.bytes }) = Except.ok s := h
    split at hbegins
    · cases hbegins
    · cases hbegins
      exact ⟨rfl, _, rfl⟩

theorem fresh_scan {layout : Layout} {keep : Record → Bool} (h : scan d l r layout keep = .ok s) :
    l.isClosed s.resource = false ∧ s.Fresh content := by
  obtain ⟨hopen, file, rfl⟩ := openAt_ok hcontent h
  have hsource := Source.together_ofBytes content layout 0
  refine ⟨hopen, rfl, rfl, ?_, ?_⟩
  · cases layout <;> exact .scan keep hsource
  · cases layout <;> rfl

theorem fresh_keyed {layout : Layout} {count : Nat} (h : keyed d l r layout offset count = .ok s) :
    l.isClosed s.resource = false ∧ s.Fresh content ∧
      s.feed = .keyed ((Source.ofBytes content layout).seek offset) offset count := by
  obtain ⟨hopen, file, rfl⟩ := openAt_ok hcontent h
  have hsource := Source.together_ofBytes content layout offset
  refine ⟨hopen, ⟨rfl, rfl, .keyed offset count hsource, ?_⟩, rfl⟩
  cases layout <;> rfl

theorem fresh_blocks {framing : BlockLayout} {layout : RecordLayout}
    (h : blocks d l r layout framing = .ok s) : l.isClosed s.resource = false ∧ s.Fresh content := by
  rw [blocks] at h
  cases hcheck : framing.check with
  | error e => simp [hcheck, Except.bind] at h
  | ok _ =>
    simp only [hcheck, Except.bind] at h
    obtain ⟨hopen, file, rfl⟩ := openAt_ok hcontent h
    have hcursor := Cursor.together_seek (rfl : (Cursor.new content).content = content) 0
    exact ⟨hopen, rfl, rfl, .blocks rfl hcursor rfl, rfl⟩

/-- A scan, and a stream of blocks, all of whose records can be read replays them. So does a keyed stream
if the readings that it owes do not fail: it gives the first of the records from its offset on, and if they
are too few, it ends with that failure. -/
theorem calls_replay :
    (∀ (layout : Layout) (keep : Record → Bool) (s : Stream) (all : List Record),
      scan d l r layout keep = .ok s → (s.readAll l).1 = .ok all → s.Replays content all none) ∧
    (∀ (framing : BlockLayout) (layout : RecordLayout) (s : Stream) (all : List Record),
      blocks d l r layout framing = .ok s → (s.readAll l).1 = .ok all → s.Replays content all none) ∧
    ∀ (layout : Layout) (offset count : Nat) (s : Stream) (found : List (Nat × Record)),
      keyed d l r layout offset count = .ok s →
      (layout.recordsFrom content offset).take count = found.map .ok →
      let ending := if found.length < count then some (Fault.unexpectedEnd count found.length) else none
      s.readUpTo l none = (found.map Prod.snd, ending) ∧
        s.Replays content (found.map Prod.snd) ending := by
  refine ⟨fun layout keep s all hscan hread => ?_, fun framing layout s all hblocks hread => ?_, ?_⟩
  · obtain ⟨hopen, hfresh⟩ := fresh_scan hcontent hscan
    have hgives := gives_of_readAll hopen hfresh.pending hread
    rw [hfresh.taken] at hgives
    exact hfresh.replays hgives
  · obtain ⟨hopen, hfresh⟩ := fresh_blocks hcontent hblocks
    have hgives := gives_of_readAll hopen hfresh.pending hread
    rw [hfresh.taken] at hgives
    exact hfresh.replays hgives
  · intro layout offset count s found hkeyed hfound ending
    obtain ⟨hopen, hfresh, hfeed⟩ := fresh_keyed hcontent hkeyed
    have hgives : s.feed.Gives ending ending 0 (found.map Prod.snd) := by
      rw [hfeed]
      exact Feed.gives_keyed (Source.yields_seek layout content offset) hfound (Nat.zero_le _)
        (by rw [Nat.zero_add])
    refine ⟨?_, hfresh.replays hgives⟩
    rw [← hfresh.taken] at hgives
    exact readUpTo_of_gives hopen hfresh.pending hgives

end

/-- Two whole records and a byte of a third. -/
def wordsAndByte : List UInt8 := [0, 1, 0, 2, 0]

def isTwo : Record → Bool
  | .binary b => b.bytes == [0, 2]
  | .text _ => false

/-- A filter that passes over the first record, blocks of which one is empty, and a keyed stream that owes
more records than there are. -/
theorem calls_replay_shortWords :
    (∃ s, scan (diskWith wordsAndByte) {} ⟨"a", 0⟩ (.binary shortWords) isTwo = .ok s ∧
      s.Steady wordsAndByte ⟨diskWith wordsAndByte, {}⟩ ∧
      s.Replays wordsAndByte [.binary ⟨shortWords, [0, 2]⟩] none) ∧
    (∃ s, blocks (diskWith (Block.file [noWords, twoWords])) {} ⟨"a", 0⟩ shortWords lettered = .ok s ∧
      s.Replays (Block.file [noWords, twoWords])
        [.binary ⟨shortWords, [0, 1]⟩, .binary ⟨shortWords, [0, 2]⟩] none) ∧
    ∃ s, keyed (diskWith wordsAndByte) {} ⟨"a", 0⟩ (.binary shortWords) 2 3 = .ok s ∧
      s.Replays wordsAndByte [.binary ⟨shortWords, [0, 2]⟩] (some (.unexpectedEnd 3 1)) := by
  have hwords := calls_replay (d := diskWith wordsAndByte) (l := {}) (r := ⟨"a", 0⟩) rfl
  have hblocks := calls_replay (d := diskWith (Block.file [noWords, twoWords])) (l := {}) (r := ⟨"a", 0⟩) rfl
  refine ⟨⟨_, rfl, ⟨rfl, rfl, rfl⟩, ?_⟩, ⟨_, rfl, ?_⟩, ⟨_, rfl, ?_⟩⟩
  · have hyields : (Source.ofBytes wordsAndByte (.binary shortWords)).Yields
        ([(0, .binary ⟨shortWords, [0, 1]⟩), (2, .binary ⟨shortWords, [0, 2]⟩)].map .ok) := rfl
    have hgives := Feed.gives_scan isTwo hyields 0
    have hread := readUpTo_of_gives (l := {}) (s := { resource := ⟨"a", 0⟩, file := some 0, feed := _ })
      rfl rfl hgives
    exact hwords.1 (.binary shortWords) isTwo _ _ rfl (readAll_of_readUpTo rfl rfl hread)
  · have hread := readUpTo_within (l := {}) (s := { resource := ⟨"a", 0⟩, file := some 0, feed := _ })
      (by decide) [noWords, twoWords] 14 rfl rfl rfl
    exact hblocks.2.1 lettered shortWords _ _ rfl (readAll_of_readUpTo rfl rfl hread)
  · have hkeyed := hwords.2.2 (.binary shortWords) 2 3 _ [(2, .binary ⟨shortWords, [0, 2]⟩)] rfl rfl
    exact hkeyed.2

end SciArchive.Stream
