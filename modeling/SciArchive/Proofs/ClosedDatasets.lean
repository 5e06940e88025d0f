import SciArchive.Proofs.IndexReading
import SciArchive.Proofs.KeyedAccess
import SciArchive.Proofs.Replays

/-! Closed datasets. However streams were made and used before, once their dataset is closed they refuse every
call, records that were found and not yet taken included, and stay where they were. -/
namespace SciArchive

/-! ### Ledgers -/

namespace Ledger

theorem isClosed_close {l : Ledger} {r s : Resource} :
    (l.close s).isClosed r = true ↔ r.number = s.number ∨ l.isClosed r = true := by
  simp [isClosed, close]

/-- Of all resources, those of the list get closed, and no closed one gets open. -/
theorem isClosed_closeAll {l : Ledger} {rs : List Resource} {r : Resource} :
    (l.closeAll rs).isClosed r = true ↔ (∃ s ∈ rs, r.number = s.number) ∨ l.isClosed r = true := by
  induction rs generalizing l with
  | nil => simp [closeAll]
  | cons s rs ih =>
    have hstep : l.closeAll (s :: rs) = (l.close s).closeAll rs := rfl
    rw [hstep, ih, isClosed_close, List.exists_mem_cons_iff, or_left_comm, or_assoc]

end Ledger

/-! ### Streams -/

namespace Stream

variable {s : Stream} {m : Moment}

@[simp] theorem refresh_resource (d : Disk) (s : Stream) : (s.refresh d).resource = s.resource := by
  rw [refresh]
  split <;> rfl

@[simp] theorem refresh_taken (d : Disk) (s : Stream) : (s.refresh d).taken = s.taken := by
  rw [refresh]
  split <;> rfl

theorem hasNext_resource (l : Ledger) (s : Stream) : (s.hasNext l).2.resource = s.resource := by
  unfold hasNext whenOpen
  split
  · rfl
  · split
    · rfl
    · simp only
      split <;> rfl

theorem next_resource (l : Ledger) (s : Stream) : (s.next l).2.resource = s.resource := by
  unfold next whenOpen
  split
  · rfl
  · split <;> rfl

theorem reset_resource (l : Ledger) (s : Stream) : (s.reset l).2.resource = s.resource := by
  unfold reset whenOpen
  split <;> rfl

theorem respond_resource (m : Moment) (s : Stream) (c : Call) : (s.respond m c).2.resource = s.resource := by
  cases c with
  | hasNext => exact (hasNext_resource _ _).trans (refresh_resource _ _)
  | next => exact (next_resource _ _).trans (refresh_resource _ _)
  | reset => exact (reset_resource _ _).trans (refresh_resource _ _)

/-- The failing answer to a call. -/
def refusal (e : Fault) : Call → Reply
  | .hasNext => .more (.error e)
  | .next => .record (.error e)
  | .reset => .begun (.error e)

/-- A stream of a closed resource refuses every call and is left as it is. -/
theorem respond_closed (h : m.ledger.isClosed s.resource = true) (c : Call) :
    s.respond m c = (refusal (.resourceClosed s.resource.path) c, s.refresh m.disk) := by
  cases c <;> simp [respond, hasNext, next, reset, whenOpen, h, refusal]

theorem openAt_resource {d : Disk} {l : Ledger} {r : Resource} {offset : Nat} {onFile : List UInt8 → Feed}
    {onFolder : Feed} (h : openAt d l r offset onFile onFolder = .ok s) : s.resource = r := by
  obtain ⟨entry, -, hentry⟩ := bind_eq_ok.mp h
  split at hentry
  · cases hentry
  · split at hentry <;> cases hentry <;> rfl

end Stream

/-! ### Datasets -/

namespace Access

/-- The resources that records are read from. -/
def resources : Access → List Resource
  | strikes r => [r]
  | stations data catalog _ => [data, catalog]

variable {a : Access} {d : Disk} {l : Ledger} {r : Resource} {index : Option SecondaryIndex}
  {sequence key : String} {s : Stream}

theorem scanFor_resource {layout : TextLayout} (h : scanFor d l r layout key = .ok s) : s.resource = r := by
  rw [scanFor] at h
  exact Stream.openAt_resource h

theorem stationData_resource (h : stationData d l r index key = .ok s) : s.resource = r := by
  unfold stationData at h
  split at h
  · exact scanFor_resource h
  · split at h
    · exact Stream.openAt_resource h
    · split at h
      · exact Stream.openAt_resource h
      · exact scanFor_resource h

theorem stationLine_resource (h : stationLine d l r index key = .ok s) : s.resource = r := by
  unfold stationLine at h
  split at h
  · exact scanFor_resource h
  · exact Stream.openAt_resource h

theorem stream_resource (h : a.stream d l sequence = .ok s) : s.resource ∈ a.resources := by
  cases a with
  | strikes r =>
    rw [stream] at h
    split at h
    · obtain ⟨_, -, hopened⟩ := bind_eq_ok.mp h
      exact List.mem_singleton.mpr (Stream.openAt_resource hopened)
    · cases h
  | stations data catalog index =>
    rw [resources, List.mem_pair]
    rw [stream] at h
    split at h
    · exact .inl (Stream.openAt_resource h)
    · split at h
      · exact .inr (Stream.openAt_resource h)
      · cases h

theorem keyedStream_resource (h : a.keyedStream d l sequence key = .ok s) : s.resource ∈ a.resources := by
  cases a with
  | strikes r => cases h
  | stations data catalog index =>
    rw [resources, List.mem_pair]
    rw [keyedStream] at h
    split at h
    · exact .inl (stationData_resource h)
    · split at h
      · exact .inr (stationLine_resource h)
      · cases h

end Access

namespace Dataset

/-- What was opened is not closed, and has all resources that it reads from. -/
theorem openAt_spec {d : Disk} {l : Ledger} {path : String} {config : IndexConfig} {s : Dataset}
    {after : Disk × Ledger} (h : openAt d l path config = .ok (s, after)) :
    s.closed = false ∧ s.resources = s.access.resources := by
  unfold openAt at h
  split at h
  · cases h
  · unfold openStrikes at h
    split at h
    · cases h
    · split at h
      · cases h
      · cases h
        exact ⟨rfl, rfl⟩
  · obtain ⟨data, catalog, obtained, haccess, hresources, hclosed, -⟩ := openStations_ok h
    rw [haccess]
    exact ⟨hclosed, hresources⟩

theorem whenOpen_ok {α : Type} {s : Dataset} {call : Except Fault α} {a : α} (h : s.whenOpen call = .ok a) :
    call = .ok a := by
  unfold whenOpen at h
  split at h
  · cases h
  · exact h

theorem close_dataset (s : Dataset) (l : Ledger) : (s.close l).1 = { s with closed := true } := by
  unfold close
  split
  · rename_i hclosed
    rw [← hclosed]
  · rfl

theorem close_ledger {s : Dataset} {l : Ledger}
    (hclosed : s.closed = true → ∀ r ∈ s.resources, l.isClosed r = true) {r : Resource} (hr : r ∈ s.resources) :
    (s.close l).2.isClosed r = true := by
  unfold close
  split
  · rename_i hnow
    exact hclosed hnow r hr
  · exact Ledger.isClosed_closeAll.mpr (.inl ⟨r, hr, rfl⟩)

/-! ### Sessions -/

/-- What can be asked of a dataset and of its streams, which are counted as they are made. -/
inductive Request where
  | stream (sequence : String)
  | keyedStream (sequence key : String)
  | call (number : Nat) (c : Stream.Call)
  | index (number : Nat)
  | close

inductive Answer where
  | made (answer : Except Fault Unit)
  | reply (r : Stream.Reply)
  | index (taken : Nat)
  | closed
  | noStream

/-- An open dataset in use. -/
structure Session where
  dataset : Dataset
  ledger : Ledger
  streams : List Stream := []

namespace Session

/-- Keep a stream that was made. -/
def keep (s : Session) : Except Fault Stream → Answer × Session
  | .error e => (.made (.error e), s)
  | .ok stream => (.made (.ok ()), { s with streams := s.streams ++ [stream] })

/-- The answer to a request, made when the disk is `d`, and the session behind it. -/
def step (s : Session) (d : Disk) : Request → Answer × Session
  | .stream sequence => s.keep (s.dataset.stream d s.ledger sequence)
  | .keyedStream sequence key => s.keep (s.dataset.keyedStream d s.ledger sequence key)
  | .call number c =>
    match s.streams[number]? with
    | none => (.noStream, s)
    | some stream =>
      let r := stream.respond ⟨d, s.ledger⟩ c
      (.reply r.1, { s with streams := s.streams.set number r.2 })
  | .index number =>
    match s.streams[number]? with
    | none => (.noStream, s)
    | some stream => (.index stream.taken, s)
  | .close =>
    let r := s.dataset.close s.ledger
    (.closed, { s with dataset := r.1, ledger := r.2 })

/-- The answers to a run of requests, and the session behind it. -/
def run (s : Session) : List (Disk × Request) → List Answer × Session
  | [] => ([], s)
  | q :: later =>
    let now := s.step q.1 q.2
    let rest := run now.2 later
    (now.1 :: rest.1, rest.2)

/-- The resource of each stream, and how many records were taken from it. -/
def marks (s : Session) : List (Resource × Nat) := s.streams.map fun stream => (stream.resource, stream.taken)

theorem getElem?_marks (s : Session) (number : Nat) :
    s.marks[number]? = s.streams[number]?.map fun stream => (stream.resource, stream.taken) :=
  List.getElem?_map

/-- What a closed dataset answers. No stream is made, those that were made fail, and their counts stand. -/
def refusal (s : Session) : Request → Answer
  | .stream _ | .keyedStream _ _ => .made (.error (.resourceClosed s.dataset.path))
  | .call number c =>
    match s.marks[number]? with
    | none => .noStream
    | some mark => .reply (Stream.refusal (.resourceClosed mark.1.path) c)
  | .index number =>
    match s.marks[number]? with
    | none => .noStream
    | some mark => .index mark.2
  | .close => .closed

theorem refusal_congr {s u : Session} (hpath : s.dataset.path = u.dataset.path) (hmarks : s.marks = u.marks) :
    s.refusal = u.refusal := by
  funext q
  cases q <;> simp only [refusal, hpath, hmarks]

/-- All streams read from resources of the dataset, which are closed with it. -/
structure Sound (s : Session) : Prop where
  resources : s.dataset.resources = s.dataset.access.resources
  streams : ∀ stream ∈ s.streams, stream.resource ∈ s.dataset.resources
  closed : s.dataset.closed = true → ∀ r ∈ s.dataset.resources, s.ledger.isClosed r = true

variable {s : Session}

theorem Sound.keep (h : s.Sound) {made : Except Fault Stream}
    (hmade : ∀ stream, made = .ok stream → stream.resource ∈ s.dataset.resources) : (s.keep made).2.Sound := by
  cases made with
  | error e => exact h
  | ok stream =>
    have hstreams : ∀ other ∈ s.streams ++ [stream], other.resource ∈ s.dataset.resources :=
      List.forall_mem_append.mpr ⟨h.streams, List.forall_mem_singleton.mpr (hmade stream rfl)⟩
    exact { h with streams := hstreams }

/-- Whatever is asked, streams keep to the resources of the dataset. -/
theorem Sound.step (h : s.Sound) (d : Disk) (q : Request) : (s.step d q).2.Sound := by
  cases q with
  | stream sequence =>
    refine h.keep fun stream hmade => ?_
    rw [h.resources]
    exact Access.stream_resource (whenOpen_ok hmade)
  | keyedStream sequence key =>
    refine h.keep fun stream hmade => ?_
    rw [h.resources]
    exact Access.keyedStream_resource (whenOpen_ok hmade)
  | call number c =>
    rw [Session.step]
    split
    · exact h
    · rename_i stream hstream
      refine { h with streams := fun other hother => ?_ }
      rcases List.mem_or_eq_of_mem_set hother with hmem | rfl
      · exact h.streams other hmem
      · rw [Stream.respond_resource]
        exact h.streams stream (List.mem_of_getElem? hstream)
  | index number =>
    rw [Session.step]
    split <;> exact h
  | close =>
    have hdataset := close_dataset s.dataset s.ledger
    exact {
      resources := by rw [Session.step, hdataset]; exact h.resources
      streams := by rw [Session.step, hdataset]; exact h.streams
      closed := fun _ r hr => by
        rw [Session.step, hdataset] at hr
        exact close_ledger h.closed hr }

theorem Sound.run (h : s.Sound) (requests : List (Disk × Request)) : (s.run requests).2.Sound := by
  induction requests generalizing s with
  | nil => exact h
  | cons q later ih => exact ih (h.step q.1 q.2)

/-- The dataset changes by being closed only. -/
theorem step_dataset (s : Session) (d : Disk) (q : Request) :
    ∃ closed, (s.step d q).2.dataset = { s.dataset with closed } := by
  have hkeep : ∀ made, (s.keep made).2.dataset = { s.dataset with closed := s.dataset.closed } := by
    intro made
    cases made <;> rfl
  cases q with
  | stream sequence => exact ⟨_, hkeep _⟩
  | keyedStream sequence key => exact ⟨_, hkeep _⟩
  | call number c =>
    refine ⟨s.dataset.closed, ?_⟩
    rw [step]
    split <;> rfl
  | index number =>
    refine ⟨s.dataset.closed, ?_⟩
    rw [step]
    split <;> rfl
  | close => exact ⟨true, close_dataset s.dataset s.ledger⟩

theorem run_dataset (s : Session) (requests : List (Disk × Request)) :
    ∃ closed, (s.run requests).2.dataset = { s.dataset with closed } := by
  induction requests generalizing s with
  | nil => exact ⟨s.dataset.closed, rfl⟩
  | cons q later ih =>
    obtain ⟨_, hstep⟩ := s.step_dataset q.1 q.2
    obtain ⟨closed, hlater⟩ := ih (s.step q.1 q.2).2
    exact ⟨closed, by rw [run, hlater, hstep]⟩

/-- Once the dataset is closed, every request is refused, and all counts stand. -/
theorem Sound.step_closed (h : s.Sound) (hclosed : s.dataset.closed = true) (d : Disk) (q : Request) :
    (s.step d q).1 = s.refusal q ∧ (s.step d q).2.marks = s.marks ∧ (s.step d q).2.dataset = s.dataset := by
  cases q with
  | stream sequence =>
    rw [Session.step, Dataset.stream, whenOpen, if_pos hclosed]
    exact ⟨rfl, rfl, rfl⟩
  | keyedStream sequence key =>
    rw [Session.step, Dataset.keyedStream, whenOpen, if_pos hclosed]
    exact ⟨rfl, rfl, rfl⟩
  | call number c =>
    cases hstream : s.streams[number]? with
    | none =>
      rw [Session.step, refusal, getElem?_marks, hstream]
      exact ⟨rfl, rfl, rfl⟩
    | some stream =>
      have hresource : s.ledger.isClosed stream.resource = true :=
        h.closed hclosed _ (h.streams stream (List.mem_of_getElem? hstream))
      have hstep : s.step d (.call number c) = (.reply (Stream.refusal (.resourceClosed stream.resource.path) c),
          { s with streams := s.streams.set number (stream.refresh d) }) := by
        have hrespond := Stream.respond_closed (m := ⟨d, s.ledger⟩) hresource c
        rw [Session.step, hstream]
        simp only [hrespond]
      have hmarks : { s with streams := s.streams.set number (stream.refresh d) }.marks = s.marks := by
        have hmark : s.marks[number]? = some (stream.resource, stream.taken) := by
          rw [getElem?_marks, hstream, Option.map_some]
        obtain ⟨hlt, hget⟩ := List.getElem?_eq_some_iff.mp hmark
        calc _ = s.marks.set number (stream.resource, stream.taken) := by
              rw [marks, List.map_set, Stream.refresh_resource, Stream.refresh_taken, marks]
          _ = s.marks := by rw [← hget, List.set_getElem_self]
      rw [hstep, refusal, getElem?_marks, hstream]
      exact ⟨rfl, hmarks, rfl⟩
  | index number =>
    rw [Session.step, refusal, getElem?_marks]
    cases s.streams[number]? <;> exact ⟨rfl, rfl, rfl⟩
  | close =>
    rw [Session.step, close, if_pos hclosed]
    exact ⟨rfl, rfl, rfl⟩

theorem Sound.run_closed (h : s.Sound) (hclosed : s.dataset.closed = true) (requests : List (Disk × Request)) :
    (s.run requests).1 = requests.map (fun q => s.refusal q.2) ∧ (s.run requests).2.marks = s.marks := by
  induction requests generalizing s with
  | nil => exact ⟨rfl, rfl⟩
  | cons q later ih =>
    obtain ⟨hanswer, hmarks, hdataset⟩ := h.step_closed hclosed q.1 q.2
    obtain ⟨hanswers, hlater⟩ := ih (h.step q.1 q.2) (hdataset ▸ hclosed)
    rw [refusal_congr (congrArg Dataset.path hdataset) hmarks] at hanswers
    exact ⟨congrArg₂ List.cons hanswer hanswers, hlater.trans hmarks⟩

theorem refusal_ne_record (s : Session) (q : Request) (r : Record) : s.refusal q ≠ .reply (.record (.ok r)) := by
  intro h
  cases q with
  | call number c =>
    rw [refusal] at h
    split at h
    · cases h
    · cases c <;> cases h
  | index number =>
    rw [refusal] at h
    split at h <;> cases h
  | _ => cases h

end Session

/-- Behind a closing, whatever was asked of an opened dataset before, all its streams, which read from its
resources, refuse every call with the resource that is closed, and it makes no others. No record is returned any
more, and each stream has taken as many as it had. -/
theorem closed_for_good {d d' : Disk} {l l' : Ledger} {path : String} {config : IndexConfig} {s : Dataset}
    (h : openAt d l path config = .ok (s, d', l')) (before later : List (Disk × Request)) (disk : Disk) :
    let t := (Session.run ⟨s, l', []⟩ before).2
    let u := (t.step disk .close).2.run later
    (∃ closed, t.dataset = { s with closed }) ∧ (∀ stream ∈ t.streams, stream.resource ∈ s.resources) ∧
      u.1 = later.map (fun q => t.refusal q.2) ∧ (∀ r, .reply (.record (.ok r)) ∉ u.1) ∧ u.2.marks = t.marks := by
  intro t u
  obtain ⟨hopen, hresources⟩ := openAt_spec h
  have hstart : Session.Sound ⟨s, l', []⟩ := {
    resources := hresources
    streams := fun _ hstream => by cases hstream
    closed := fun hclosed => absurd hclosed (by simp [hopen]) }
  have ht : t.Sound := hstart.run before
  obtain ⟨closed, hdataset⟩ : ∃ closed, t.dataset = { s with closed } := Session.run_dataset _ before
  have hclosing : (t.step disk .close).2.dataset = { t.dataset with closed := true } :=
    close_dataset t.dataset t.ledger
  obtain ⟨hanswers, hmarks⟩ := (ht.step disk .close).run_closed (by rw [hclosing]) later
  have hrefusal : (t.step disk .close).2.refusal = t.refusal :=
    Session.refusal_congr (by rw [hclosing]) rfl
  rw [hrefusal] at hanswers
  refine ⟨⟨closed, hdataset⟩, ?_, hanswers, fun r hr => ?_, hmarks⟩
  · have hstreams := ht.streams
    rwa [hdataset] at hstreams
  · have hr' : .reply (.record (.ok r)) ∈ later.map (fun q => t.refusal q.2) := hanswers ▸ hr
    obtain ⟨q, -, hq⟩ := List.mem_map.mp hr'
    exact t.refusal_ne_record q.2 r hq

/-- A file of one block with one strike, all zero. -/
def oneStrike : Disk :=
  Stream.diskWith (Lightning.mark ++ List.replicate 7 0 ++ [1] ++ List.replicate 72 0 ++ List.replicate 28 0)

theorem oneStrike_opens : (openAt oneStrike {} "a" {}).toOption.isSome = true := by decide +kernel

/-- The strike has been found when the dataset is closed, and is not returned. -/
theorem closed_for_good_oneStrike :
    let o := (openAt oneStrike {} "a" {}).toOption.get oneStrike_opens
    let t := (Session.run ⟨o.1, o.2.2, []⟩
      [(oneStrike, .stream Lightning.sequence), (oneStrike, .call 0 .hasNext)]).2
    t.streams.map (fun stream => stream.pending.isSome) = [true] ∧
    ((t.step oneStrike .close).2.run
        [(oneStrike, .call 0 .next), (oneStrike, .index 0), (oneStrike, .stream Lightning.sequence)]).1 =
      [.reply (.record (.error (.resourceClosed "a"))), .index 0, .made (.error (.resourceClosed "a"))] := by
  intro o t
  have hmarks : t.marks = [(⟨"a", 0⟩, 0)] := by decide +kernel
  have hpath : t.dataset.path = "a" := by decide +kernel
  have hopened : openAt oneStrike {} "a" {} = .ok (o.1, o.2.1, o.2.2) := Station.eq_ok_get oneStrike_opens
  obtain ⟨-, -, hanswers, -, -⟩ := closed_for_good hopened
    [(oneStrike, .stream Lightning.sequence), (oneStrike, .call 0 .hasNext)]
    [(oneStrike, .call 0 .next), (oneStrike, .index 0), (oneStrike, .stream Lightning.sequence)] oneStrike
  have hnext : t.refusal (.call 0 .next) = .reply (.record (.error (.resourceClosed "a"))) := by
    rw [Session.refusal, hmarks]
    rfl
  have hindex : t.refusal (.index 0) = .index 0 := by
    rw [Session.refusal, hmarks]
    rfl
  have hstream : t.refusal (.stream Lightning.sequence) = .made (.error (.resourceClosed "a")) := by
    rw [Session.refusal, hpath]
  refine ⟨by decide +kernel, hanswers.trans ?_⟩
  simp only [List.map_cons, List.map_nil]
  rw [hnext, hindex, hstream]

end Dataset
end SciArchive
