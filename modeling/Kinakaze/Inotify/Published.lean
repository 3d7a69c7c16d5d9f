import Kinakaze.Inotify.Calls

/-!
# What an inotify instance publishes reads back

* `State.Fits`: the limits of the reader, on the descriptors, the paths, the number of
  watches and the length of the queue.
* `State.read_eq`, `Queue.read_eq`: within them a publication reads back as itself.
-/

namespace Kinakaze.Inotify

open Library Std

def InI32 (value : Int) : Prop := -2 ^ 31 ≤ value ∧ value < 2 ^ 31

theorem reads_i32 {value : Int} (h : InI32 value) : Reads readI32 (i32Bytes value) value := by
  have hback : ((BitVec.ofInt 64 value).setWidth 32).toInt = value := by
    obtain ⟨hlow, hhigh⟩ := h
    have hshort : (BitVec.ofInt 64 value).setWidth 32 = BitVec.ofInt 32 value := by
      apply BitVec.eq_of_toNat_eq
      rw [BitVec.toNat_setWidth, BitVec.toNat_ofInt, BitVec.toNat_ofInt]
      omega
    rw [hshort, BitVec.toInt_ofInt, Int.bmod_eq_of_le] <;> omega
  have hread := (reads_word EIO (BitVec.ofInt 64 value)).map fun word => (word.setWidth 32).toInt
  rwa [hback] at hread

theorem fromUtf8_utf8 (s : String) : fromUtf8 (utf8 s) = some s := by
  have hbytes : (⟨((utf8 s).map UInt8.ofBitVec).toArray⟩ : ByteArray) = s.toUTF8 := by
    have hmap : (utf8 s).map UInt8.ofBitVec = s.toUTF8.data.toList := by
      rw [utf8, List.map_map]
      exact List.map_id _
    rw [hmap, Array.toArray_toList]
  rw [fromUtf8, hbytes, String.fromUTF8?]
  exact dif_pos s.isValidUTF8

theorem Path.ofString_lossy {p : Path} (h : p.Unicode) : Path.ofString p.lossy = p := by
  rw [Path.ofString, Path.lossy, String.toList_ofList, List.map_map]
  conv_rhs => rw [← List.map_id p]
  refine List.map_congr_left fun unit hunit => ?_
  obtain ⟨c, rfl⟩ := h unit hunit
  rfl

theorem reads_path {p : Path} (h : p.Unicode) (hlength : (utf8 p.lossy).length < 2 ^ 64) :
    Reads readPath (countedBytes (utf8 p.lossy)) p := by
  intro rest
  rw [readPath, (reads_counted EIO hlength).run, fromUtf8_utf8]
  show Except.ok (Path.ofString p.lossy, rest) = _
  rw [Path.ofString_lossy h]

theorem reads_watch {watches : Watches} {wd : Int} {watch : Watch} (hwd : InI32 wd)
    (hpath : watch.path.Unicode) (hlossy : (utf8 watch.path.lossy).length < 2 ^ 64)
    (hfilter : watch.filter.length < 2 ^ 64) (hnew : watches[wd]? = none) :
    Reads (readWatch watches) (Watch.write (wd, watch)) (watches.insert wd watch) := by
  intro rest
  simp only [Watch.write, List.append_assoc]
  rw [readWatch, (reads_i32 hwd).run, (reads_word EIO _).run, (reads_word EIO _).run,
    (reads_word EIO _).run, (reads_truncated EIO (by decide) _).run,
    (reads_truncated EIO (by decide) _).run, (reads_path hpath hlossy).run,
    (reads_counted EIO hfilter).run, run_refuse EIO (by rw [hnew]; rfl)]
  rfl

theorem reads_events {events : List Bytes} (h : ∀ event ∈ events, event.length < 2 ^ 64) :
    Reads (iterate readEvent events.length []) (events.flatMap countedBytes) events :=
  Reads.iterate_push events fun event hevent => reads_counted EIO (h event hevent)

/-! ## Memory queues -/

def Queue.Fits (q : Queue) : Prop :=
  q.events.length ≤ 4097 ∧ ∀ event ∈ q.events, event.length < 2 ^ 64

variable {q : Queue}

theorem run_queueReader (hcount : q.events.length < 2 ^ 64) :
    Queue.reader q.encode = (refuse EIO (decide (q.events.length > 4097)) >>= fun _ => do
        let events ← iterate readEvent q.events.length []
        finish EIO
        pure { q with events }) (q.events.flatMap countedBytes ++ []) := by
  conv_lhs => rw [Queue.encode, ← List.append_nil (q.events.flatMap countedBytes)]
  rw [Queue.reader, (reads_word EIO _).run, run_refuse EIO (by decide),
    (reads_truncated EIO (by decide) _).run, (reads_number EIO hcount).run]

theorem Queue.read_eq (h : q.Fits) : q.read = .ok q := by
  obtain ⟨hcount, hlengths⟩ := h
  rw [Queue.read, Queue.decode, StateT.run', run_queueReader (by omega),
    run_refuse EIO (decide_eq_false (by omega)), (reads_events hlengths).run, run_finish_nil]
  rfl

/-! ## The instance -/

structure State.Fits (s : State) : Prop where
  next : InI32 s.next
  watch : ForAll s.watches fun wd watch => InI32 wd ∧ watch.path.Unicode
  watches : s.watches.size ≤ 16384
  queue : s.queue.length ≤ QUEUE_LIMIT + 1
  size : s.encode.length ≤ PUBLICATION_LIMIT

theorem State.length_encode (s : State) :
    s.encode.length = 32 + (s.watches.toList.flatMap Watch.write).length +
      (s.queue.flatMap countedBytes).length := by
  simp only [State.encode, i32Bytes, List.length_append, length_wordBytes, length_numberBytes]
  omega

variable {s : State}

theorem State.Fits.entry (h : s.Fits) {entry : Int × Watch} (hentry : entry ∈ s.watches.toList) :
    InI32 entry.1 ∧ entry.2.path.Unicode ∧ (utf8 entry.2.path.lossy).length < 2 ^ 64 ∧
      entry.2.filter.length < 2 ^ 64 := by
  obtain ⟨hwd, hpath⟩ := h.watch entry.1 entry.2
    (ExtTreeMap.mem_toList_iff_getElem?_eq_some.mp hentry)
  have hsize := h.size
  have hwrite := length_le_length_flatMap (f := Watch.write) hentry
  rw [s.length_encode, PUBLICATION_LIMIT] at hsize
  simp only [Watch.write, List.length_append, length_countedBytes] at hwrite
  refine ⟨hwd, hpath, by omega, by omega⟩

theorem State.Fits.event (h : s.Fits) {event : Bytes} (hevent : event ∈ s.queue) :
    event.length < 2 ^ 64 := by
  have hsize := h.size
  have hwrite := length_le_length_flatMap (f := countedBytes) hevent
  rw [s.length_encode, PUBLICATION_LIMIT] at hsize
  rw [length_countedBytes] at hwrite
  omega

theorem reads_watches (h : s.Fits) :
    Reads (iterate readWatch s.watches.size ∅) (s.watches.toList.flatMap Watch.write)
      s.watches := by
  have hread : Reads (iterate readWatch s.watches.toList.length (insertAll []))
      (s.watches.toList.flatMap Watch.write) (insertAll s.watches.toList) := by
    refine Reads.iterate s.watches.toList fun front entry back hsplit => ?_
    have hentry : entry ∈ s.watches.toList := by rw [hsplit]; simp
    obtain ⟨hwd, hpath, hlossy, hfilter⟩ := h.entry hentry
    have hkeys := nodup_keys_toList s.watches
    rw [hsplit] at hkeys
    rw [insertAll_append]
    exact reads_watch hwd hpath hlossy hfilter (not_mem_insertAll hkeys)
  rwa [insertAll_toList, ExtTreeMap.length_toList] at hread

theorem State.read_eq (h : s.Fits) : s.read = .ok s := by
  have hqueue := h.queue
  rw [QUEUE_LIMIT] at hqueue
  rw [State.read, State.decode, State.encode, StateT.run',
    ← List.append_nil (s.queue.flatMap countedBytes), State.reader, (reads_word EIO _).run,
    run_refuse EIO (by decide), (reads_i32 h.next).run,
    (reads_number EIO (h.watches.trans_lt (by decide))).run,
    run_refuse EIO (decide_eq_false (by have := h.watches; omega)), (reads_watches h).run,
    (reads_number EIO (by omega)).run,
    run_refuse EIO (decide_eq_false (by rw [QUEUE_LIMIT]; omega)),
    (reads_events fun event hevent => h.event hevent).run, run_finish_nil]
  rfl

end Kinakaze.Inotify
