import FileCacheProxy.Lib.Ledger
import FileCacheProxy.Replies
import Mathlib

set_option autoImplicit false

/-! # What requests leave behind

The handlers of `Handlers.lean` as ledgers of three kinds of resources: storage connections, heap
buffers and `evbuffer`s. The traces show every acquisition and every release, so a counter for each
kind follows a sequence of requests, whoever serves them. No path of the source closes a storage
connection or deletes a `file_content`, so a counter never comes back down once it is up. -/

namespace FileCacheProxy

/-! ## Counters -/

inductive HandlerResource where
  | storageConnection
  | heapBuffer
  | evbuffer
  deriving DecidableEq

open HandlerResource Ledger

/-- What an action acquires or releases: a connection only where `tracker_make_connection` gives
    one. -/
def Action.entries : Action → List (Entry HandlerResource)
  | .fdfs (.trackerMakeConnection _) true => [.acquire storageConnection]
  | .newChars _ => [.acquire heapBuffer]
  | .evbufferNew => [.acquire evbuffer]
  | .evbufferFree => [.release evbuffer]
  | .fdfs _ _ | .addHeader _ _ | .sendReply _ _ _ | .insertRecord _ => []

/-- The ledger of one handler call. -/
def Handled.entries (h : Handled) : List (Entry HandlerResource) :=
  h.trace.flatMap Action.entries

/-- A request with the outside world's answers to it and the event loop that gets it. -/
structure Arrival where
  be : Backend
  req : Request
  arg : ThreadParam

/-- The counters after the handler of one request. -/
def serve (counters : HandlerResource → ℤ) (a : Arrival) : HandlerResource → ℤ :=
  post counters (handle a.be a.req a.arg).entries

/-- The counters after a sequence of requests. -/
def serveAll (counters : HandlerResource → ℤ) (arrivals : List Arrival) : HandlerResource → ℤ :=
  arrivals.foldl serve counters

/-! ## The ledger of each handler -/

/-- A request that leaves something behind: an upload with a body, or a delete that succeeds. -/
def Arrival.Leaks (a : Arrival) : Prop :=
  (a.req.path = ascii "/upload" ∧ a.req.inputBuffer.isSome) ∨
  (a.req.path = ascii "/delete" ∧ ∃ fileID, a.req.findHeader (ascii "FileID") = some fileID ∧
    a.be.storageDeleteFile1 a.arg.connectResult fileID = 0)

theorem entries_replyEmpty (acts : List Action) (code : ℕ) (reason : Bytes) :
    (replyEmpty acts code reason).entries = acts.flatMap Action.entries := by
  simp [Handled.entries, replyEmpty, Action.entries]

/-- After a body has been copied, every exit of `upload_handler` leaves its buffer; a connection once
    made is left as well, the `evbuffer` never. -/
theorem uploadHandler_entries (be : Backend) (req : Request) (arg : ThreadParam)
    (h : req.inputBuffer.isSome) :
    balance heapBuffer (uploadHandler be req arg).entries = 1 ∧
      (balance storageConnection (uploadHandler be req arg).entries = 0 ∨
        balance storageConnection (uploadHandler be req arg).entries = 1) ∧
      balance evbuffer (uploadHandler be req arg).entries = 0 := by
  obtain ⟨file_content, hbuf⟩ := Option.isSome_iff_exists.1 h
  unfold uploadHandler
  simp only [hbuf]
  split
  · rw [entries_replyEmpty]
    exact ⟨rfl, Or.inl rfl, rfl⟩
  · split
    · rw [entries_replyEmpty]
      exact ⟨rfl, Or.inl rfl, rfl⟩
    · split
      · rw [entries_replyEmpty]
        exact ⟨rfl, Or.inr rfl, rfl⟩
      · rw [uploadReply_eq]
        split
        · exact ⟨rfl, Or.inr rfl, rfl⟩
        · exact ⟨rfl, Or.inr rfl, rfl⟩

theorem deleteHandler_entries (be : Backend) (req : Request) (arg : ThreadParam) :
    (deleteHandler be req arg).entries = [.acquire evbuffer] ∧
        (∃ fileID, req.findHeader (ascii "FileID") = some fileID ∧
          be.storageDeleteFile1 arg.connectResult fileID = 0) ∨
      (∀ k, balance k (deleteHandler be req arg).entries = 0) ∧
        ∀ fileID, req.findHeader (ascii "FileID") = some fileID →
          be.storageDeleteFile1 arg.connectResult fileID ≠ 0 := by
  unfold deleteHandler
  cases req.findHeader (ascii "FileID") with
  | none =>
      refine Or.inr ⟨fun k => rfl, fun fileID h => ?_⟩
      cases h
  | some fileID =>
      dsimp only
      split
      · next hne =>
          refine Or.inr ⟨fun k => ?_, fun fileID' h => ?_⟩
          · cases k <;> rfl
          · cases h
            exact hne
      · next hz =>
          have hdump : (Json.object .nil).dump = some (ascii "\x7b\x7d") := by decide
          rw [hdump]
          exact Or.inl ⟨rfl, fileID, rfl, not_not.1 hz⟩

theorem fileinfoHandler_entries (be : Backend) (req : Request) (arg : ThreadParam)
    (k : HandlerResource) : balance k (fileinfoHandler be req arg).entries = 0 := by
  unfold fileinfoHandler
  cases req.findHeader (ascii "FileID") with
  | none => rfl
  | some fileID =>
      dsimp only
      split
      · rfl
      · split
        · rfl
        · cases k <;> rfl

/-- The ledger of a request that leaks nothing is even; that of one that leaks has a surplus and
    no deficit. -/
theorem handle_entries (a : Arrival) :
    (¬ a.Leaks ∧ ∀ k, balance k (handle a.be a.req a.arg).entries = 0) ∨
    (a.Leaks ∧ (∀ k, 0 ≤ balance k (handle a.be a.req a.arg).entries) ∧
      ∃ k, 0 < balance k (handle a.be a.req a.arg).entries) := by
  unfold handle
  rw [dispatch_eq]
  split_ifs with hdel hinfo hup
  · have hleaks : a.Leaks ↔ ∃ fileID, a.req.findHeader (ascii "FileID") = some fileID ∧
        a.be.storageDeleteFile1 a.arg.connectResult fileID = 0 := by
      refine ⟨fun h => ?_, fun h => Or.inr ⟨hdel, h⟩⟩
      rcases h with ⟨hp, _⟩ | ⟨_, h⟩
      · exact absurd (hdel.symm.trans hp) (by decide)
      · exact h
    rw [hleaks]
    rcases deleteHandler_entries a.be a.req a.arg with ⟨he, hz⟩ | ⟨he, hne⟩
    · refine Or.inr ⟨hz, fun k => ?_, evbuffer, ?_⟩
      · simp only [Callback.run, he]
        cases k <;> decide
      · simp only [Callback.run, he]
        decide
    · refine Or.inl ⟨?_, he⟩
      rintro ⟨fileID, hsome, hz⟩
      exact hne fileID hsome hz
  · refine Or.inl ⟨?_, fileinfoHandler_entries a.be a.req a.arg⟩
    rintro (⟨hp, _⟩ | ⟨hp, _⟩)
    · exact absurd (hinfo.symm.trans hp) (by decide)
    · exact hdel hp
  · by_cases hbuf : a.req.inputBuffer.isSome
    · obtain ⟨hheap, hconn, hev⟩ := uploadHandler_entries a.be a.req a.arg hbuf
      refine Or.inr ⟨Or.inl ⟨hup, hbuf⟩, fun k => ?_, heapBuffer, ?_⟩
      · simp only [Callback.run]
        cases k <;> omega
      · simp only [Callback.run]
        omega
    · refine Or.inl ⟨?_, fun k => ?_⟩
      · rintro (⟨_, hsome⟩ | ⟨hp, _⟩)
        · exact hbuf hsome
        · exact hdel hp
      · rw [Option.not_isSome_iff_eq_none] at hbuf
        simp only [Callback.run, uploadHandler, hbuf, entries_replyEmpty]
        rfl
  · refine Or.inl ⟨?_, fun k => rfl⟩
    rintro (⟨hp, _⟩ | ⟨hp, _⟩)
    · exact hup hp
    · exact hdel hp

/-! ## Sequences of requests -/

/-- One request never lowers a counter, and leaves all of them alone exactly when it leaks nothing. -/
theorem serve_spec (counters : HandlerResource → ℤ) (a : Arrival) :
    counters ≤ serve counters a ∧ (serve counters a = counters ↔ ¬ a.Leaks) := by
  rcases handle_entries a with ⟨hno, heven⟩ | ⟨hleaks, hge, k, hpos⟩
  · have hsame : serve counters a = counters := by
      funext k
      simp [serve, post, heven k]
    exact ⟨hsame.ge, iff_of_true hsame hno⟩
  · refine ⟨fun k => ?_, iff_of_false (fun hsame => ?_) (not_not.2 hleaks)⟩
    · have := hge k
      simp only [serve, post]
      omega
    · have hk := congrFun hsame k
      simp only [serve, post] at hk
      omega

theorem le_serveAll (counters : HandlerResource → ℤ) (arrivals : List Arrival) :
    counters ≤ serveAll counters arrivals := by
  induction arrivals generalizing counters with
  | nil => exact le_rfl
  | cons a arrivals ih => exact (serve_spec counters a).1.trans (ih (serve counters a))

/-- **A sequence of requests restores the counters exactly when none of its requests leaks.** -/
theorem serveAll_eq_iff (counters : HandlerResource → ℤ) (arrivals : List Arrival) :
    serveAll counters arrivals = counters ↔ ∀ a ∈ arrivals, ¬ a.Leaks := by
  induction arrivals generalizing counters with
  | nil => exact iff_of_true rfl (by simp)
  | cons a arrivals ih =>
      have hcons : serveAll counters (a :: arrivals) = serveAll (serve counters a) arrivals := rfl
      rw [hcons, List.forall_mem_cons, ← (serve_spec counters a).2, ← ih (serve counters a)]
      constructor
      · intro h
        -- the counters only grow, so the first request has left them alone
        have hfirst : serve counters a = counters :=
          le_antisymm ((le_serveAll (serve counters a) arrivals).trans h.le) (serve_spec counters a).1
        exact ⟨hfirst, h.trans hfirst.symm⟩
      · rintro ⟨hfirst, hrest⟩
        exact hrest.trans hfirst

def uploadArrival : Arrival :=
  ⟨obligingBackend, ⟨ascii "/upload", [], some (ascii "hello")⟩, ⟨0, 0, 0, 0, some 1⟩⟩

/-- One upload that succeeds leaves a connection and a buffer. -/
theorem upload_leaks :
    serveAll (fun _ => 0) [uploadArrival] storageConnection = 1 ∧
      serveAll (fun _ => 0) [uploadArrival] heapBuffer = 1 ∧
      serveAll (fun _ => 0) [uploadArrival] ≠ fun _ => 0 := by
  have hheap : serveAll (fun _ => 0) [uploadArrival] heapBuffer = 1 := by decide
  refine ⟨by decide, hheap, fun h => ?_⟩
  rw [h] at hheap
  exact absurd hheap (by decide)

end FileCacheProxy
