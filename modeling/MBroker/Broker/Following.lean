import MBroker.Broker.Delivery

/-!
# Following a box (`handle_messages_to_subscriber`)

A new subscriber is first sent what its box holds, cut at the NULs. From then on it waits
until more is counted, reads up to 1023 bytes behind what it has read before, and sends
them as one message, whatever they are.

Results:
1. `Delivers.subscriber_step`: the sections of the subscriber keep `Delivers`, if a read of
   the second loop takes one message and its NUL.
2. `delivered_in_order`: in every such run of the two sessions the subscriber decodes the
   messages of the box, each once and in order.
3. `merged_read`: two messages are read at once, and the second one is lost.
-/

namespace MBroker

open ByteStream FirstFit Transition Fs TerminatedStream

namespace Broker

variable {b b' x : Broker} {v w p s i j fd n : Nat} {q : CStr}
  {ms ns done rs : List CStr} {m : CStr}
  {message rest : List UInt8} {pc : Pc} {c : Client} {sent : List (Nat × List UInt8)} {t : Fs.State}

/-! ## The sections of the subscriber -/

/-- A record of the same session. -/
structure SameSession (c d : Client) : Prop where
  box : d.box = c.box
  name : d.boxName = c.boxName
  pipe : d.clientPipe = c.clientPipe

theorem SameSession.refl (c : Client) : SameSession c c := ⟨rfl, rfl, rfl⟩

/-- The subscriber goes on after some changes that leave the publisher in peace. -/
theorem Delivers.subscriber_moves (h : Delivers b p s i fd q ms done) {ds : List CStr}
    (hclients : x.clients = b.clients)
    (hpcs : x.pcs = b.pcs) (hfds : x.fds = b.fds) (hshelf : Shelf x i q ms (uncounted (b.pcs p)))
    (hlock : (b.boxes i).lock = some p → (x.boxes i).lock = some p)
    (hcursor : ∀ j message fh, b.pcs p = .pubWrite j message fh → ∀ k, b.tfs.Cursor fh q.tail k →
      x.tfs.Cursor fh q.tail k)
    (hsame : SameSession (b.clients s) c) (hin : pc.InHistory = true → (x.boxes i).lock = some s)
    (hsofar : ds <+: ms) (hplace : FollowsAt c sent (x.tfs.Cursor c.boxFd q.tail) i fd ms ds pc)
    (hhandles : ∀ j message fh, b.pcs p = .pubWrite j message fh → pc.Reads = true → fh ≠ c.boxFd) :
    Delivers (x.place s c pc sent) p s i fd q ms ds := by
  have hpc : (x.place s c pc sent).pcs p = b.pcs p :=
    (place_pcs_of_ne h.apart).trans (congrFun hpcs p)
  have hclient : (x.place s c pc sent).clients p = b.clients p :=
    (place_clients_of_ne h.apart).trans (congrFun hclients p)
  refine ⟨?_, ⟨?_, ?_, ?_, ?_, ?_⟩, ⟨?_, ?_, ?_, ?_, ?_, hsofar, ?_⟩, h.apart, ?_⟩
  · rw [hpc]
    exact ⟨hshelf.wf, hshelf.params, hshelf.path, hshelf.valid, hshelf.short,
      hshelf.file, hshelf.counted⟩
  · rw [hpc]
    exact h.writer.place
  · rw [hclient]
    exact h.writer.box
  · rw [hclient]
    exact h.writer.pipe
  · rw [hpc]
    exact fun hpublishing => hlock (h.writer.locked hpublishing)
  · rw [hpc]
    exact fun j message fh hw => hcursor j message fh hw _ (h.writer.cursor j message fh hw)
  · rw [place_clients, hsame.box]
    exact h.reader.box
  · rw [place_clients, hsame.name]
    exact h.reader.name
  · rw [place_clients, hsame.pipe]
    exact h.reader.pipe
  · exact (congrFun hfds fd).trans h.reader.opened
  · rw [place_pcs]
    exact hin
  · rw [place_clients, place_pcs, place_sent]
    exact hplace
  · rw [hpc, place_pcs, place_clients]
    exact hhandles

/-- The subscriber goes on with the handle that it has. -/
theorem Delivers.subscriber_stands (h : Delivers b p s i fd q ms done) {ds : List CStr}
    (hold : (b.pcs s).Reads = true)
    (hsame : SameSession (b.clients s) c) (hhandle : c.boxFd = (b.clients s).boxFd)
    (hin : pc.InHistory = true → (b.pcs s).InHistory = true) (hsofar : ds <+: ms)
    (hplace : FollowsAt c sent (b.tfs.Cursor (b.clients s).boxFd q.tail) i fd ms ds pc) :
    Delivers (b.place s c pc sent) p s i fd q ms ds := by
  refine h.subscriber_moves rfl rfl rfl h.shelf id (fun _ _ _ _ _ hk => hk) hsame
    (fun hpc => h.reader.locked (hin hpc)) hsofar ?_ ?_
  · rw [hhandle]
    exact hplace
  · rw [hhandle]
    exact fun j message fh hw _ => h.handles j message fh hw hold

theorem setPc_place (b : Broker) (w : Nat) (pc : Pc) :
    b.setPc w pc = b.place w (b.clients w) pc (b.sent w) := by
  simp [place, setPc]

theorem setClient_setPc_place (b : Broker) (w : Nat) (c : Client) (pc : Pc) :
    (b.setClient w c).setPc w pc = b.place w c pc (b.sent w) := by
  simp [place, setPc, setClient]

/-- The subscriber takes the lock of the box, which no publish holds. -/
theorem Delivers.historyLock (h : Delivers b p s i fd q ms done) (hpc : b.pcs s = .historyLock j)
    (hs : b.lockBox s j .historyOpen = some b') : Delivers b' p s i fd q ms done := by
  have hplace := h.reader.place
  rw [hpc] at hplace
  obtain ⟨rfl, hdone, hsent, hoffset⟩ := hplace
  have hshelf := h.shelf
  unfold Broker.lockBox at hs
  split at hs
  · next hfree =>
    obtain rfl := Option.some.inj hs
    have hname := field_setBox (x := { b.boxes j with lock := some s }) Box.boxName rfl j
    have hsize := field_setBox (x := { b.boxes j with lock := some s }) Box.boxSize rfl j
    rw [setPc_place]
    refine h.subscriber_moves rfl rfl rfl ⟨hshelf.wf, hshelf.params,
      (path_eq hname).trans hshelf.path, hshelf.valid,
      hshelf.short, hshelf.file, hsize.trans hshelf.counted⟩ ?_
        (fun _ _ _ _ _ hk => hk) (SameSession.refl _) ?_
      h.reader.sofar ⟨hdone, hsent, hoffset⟩ fun _ _ _ _ hreads => nomatch hreads
    · intro hl
      rw [hfree] at hl
      cases hl
    · exact fun _ => congrArg Box.lock (setBox_self ..)
  · cases hs

/-- While the subscriber holds the lock, the publisher is not in the middle of a publish. -/
theorem Delivers.quiet (h : Delivers b p s i fd q ms done) (hin : (b.pcs s).InHistory = true) :
    (b.pcs p).publishing = none := by
  by_contra hne
  have hl := h.writer.locked hne
  rw [h.reader.locked hin] at hl
  exact h.apart (Option.some.inj hl).symm

theorem uncounted_of_quiet (h : pc.publishing = none) : uncounted pc = [] := by
  cases pc <;> first | rfl | cases h

theorem Delivers.historyOpen (h : Delivers b p s i fd q ms done) (hpc : b.pcs s = .historyOpen)
    (hopens : b.tfs.freeHandle ≠ none) : Delivers (b.historyOpen s) p s i fd q ms done := by
  have hplace := h.reader.place
  rw [hpc] at hplace
  obtain ⟨rfl, hsent, hoffset⟩ := hplace
  have hin : (b.pcs s).InHistory = true := by rw [hpc]; rfl
  have hquiet := h.quiet hin
  have hshelf := h.shelf
  have hfile := hshelf.file
  have hopened := @tfsOpen_cursor _ _ hshelf.wf hshelf.valid _ hfile tfsOCreat _ (Or.inr ⟨rfl, rfl⟩)
  rcases hopened with ⟨-, hnone⟩ | ⟨t, k, -, hopen, hwf, hsame, hcursor, -⟩
  · exact absurd hnone hopens
  · rw [← h.reader.name] at hopen
    rw [historyOpen_of hopen (Int.natCast_nonneg k), setClient_setPc_place]
    refine @subscriber_moves b { b with tfs := t } p s i fd q ms [] .historyTest
      { b.clients s with boxFd := (k : Int) }
      (b.sent s) h [] rfl rfl rfl ⟨hwf, hsame.params.trans hshelf.params, hshelf.path,
        hshelf.valid, hshelf.short,
        (hsame.file _).trans hfile, hshelf.counted⟩ id ?_ ⟨rfl, rfl, rfl⟩
          (fun _ => h.reader.locked hin)
      List.nil_prefix ⟨⟨hoffset, hcursor⟩, hsent⟩ ?_
    · intro j message fh hw
      rw [hw] at hquiet
      cases hquiet
    · intro j message fh hw
      rw [hw] at hquiet
      cases hquiet

/-- The history is sent, and the lock is given back. -/
theorem Delivers.historyDone (h : Delivers b p s i fd q ms done) (hin : (b.pcs s).InHistory = true)
    (hold : (b.pcs s).Reads = true)
    (heven : Even (b.clients s) (b.tfs.Cursor (b.clients s).boxFd q.tail) done)
    (hsent : b.sent s = done.flatMap (frameLines fd)) :
    Delivers (b.historyDone s) p s i fd q ms done := by
  have hshelf := h.shelf
  have hname := field_setBox (x := { b.boxes i with lock := none }) Box.boxName rfl i
  have hsize := field_setBox (x := { b.boxes i with lock := none }) Box.boxSize rfl i
  have hheld := h.reader.locked hin
  simp only [Broker.historyDone, h.reader.box]
  rw [setPc_place]
  refine h.subscriber_moves rfl rfl rfl ⟨hshelf.wf, hshelf.params,
    (path_eq hname).trans hshelf.path, hshelf.valid,
    hshelf.short, hshelf.file, hsize.trans hshelf.counted⟩ ?_
      (fun _ _ _ _ _ hk => hk) (SameSession.refl _)
    (fun hno => Bool.noConfusion hno) h.reader.sofar ⟨rfl, heven, hsent⟩ ?_
  · intro hl
    rw [hheld] at hl
    exact absurd (Option.some.inj hl).symm h.apart
  · exact fun j message fh hw _ => h.handles j message fh hw hold

theorem Delivers.historyTest (h : Delivers b p s i fd q ms done) (hpc : b.pcs s = .historyTest) :
    Delivers (b.historyTest s) p s i fd q ms done := by
  have hplace := h.reader.place
  rw [hpc] at hplace
  have hin : (b.pcs s).InHistory = true := by rw [hpc]; rfl
  have hold : (b.pcs s).Reads = true := by rw [hpc]; rfl
  simp only [Broker.historyTest, h.reader.box]
  split
  · rw [setPc_place]
    exact h.subscriber_stands hold (SameSession.refl _) rfl (fun _ => hin) h.reader.sofar hplace
  · exact h.historyDone hin hold hplace.1 hplace.2

/-- What a read delivers that starts behind `done`. -/
theorem Shelf.drop (h : Shelf b i q ms ns) (hsofar : done <+: ms) :
    ∃ rs, done ++ rs = ms ∧ (encode (ms ++ ns)).drop (encode done).length = encode (rs ++ ns) := by
  obtain ⟨rs, rfl⟩ := hsofar
  refine ⟨rs, rfl, ?_⟩
  rw [List.append_assoc, encode_append]
  exact List.drop_left

/-- A read of the subscriber, which starts behind `done` and delivers `bytes`. -/
theorem Delivers.reads (h : Delivers b p s i fd q ms done) (len : Nat)
    (heven : Even (b.clients s) (b.tfs.Cursor (b.clients s).boxFd q.tail) done) :
    ∃ rs bytes t, done ++ rs = ms ∧ bytes = (encode (rs ++ uncounted (b.pcs p))).take len ∧
      tfsRead b.tfs (b.clients s).boxFd len = .ok (t, (bytes.length : Int), bytes) ∧
      Shelf { b with tfs := t } i q ms (uncounted (b.pcs p)) ∧
      t.Cursor (b.clients s).boxFd q.tail ((encode done).length + bytes.length) ∧
      ∀ fh k, fh ≠ (b.clients s).boxFd → b.tfs.Cursor fh q.tail k → t.Cursor fh q.tail k := by
  have hshelf := h.shelf
  obtain ⟨rs, hrs, hdrop⟩ := hshelf.drop h.reader.sofar
  obtain ⟨k, hl, hk⟩ := heven.cursor
  have hcontent : b.tfs.content k = encode (ms ++ uncounted (b.pcs p)) :=
    Option.some.inj ((file_of_lookup hl).symm.trans hshelf.file)
  have hle : (encode done).length ≤ (b.tfs.inodeTable k).iSize := by
    rw [← length_content, hcontent]
    exact length_encode_le (h.reader.sofar.trans (List.prefix_append _ _))
  obtain ⟨t, hread, hwf, hsame, hmoved, hothers⟩ := @tfsRead_rest _ _ _ hshelf.wf _ _ len hk hl hle
  rw [hcontent, hdrop] at hread hmoved
  refine ⟨rs, _, t, hrs, rfl, hread, ⟨hwf, hsame.params.trans hshelf.params, hshelf.path,
    hshelf.valid, hshelf.short,
    (hsame.file _).trans hshelf.file, hshelf.counted⟩, ⟨k, (hsame.lookup _).trans hl, hmoved⟩, ?_⟩
  rintro fh o hne ⟨k', hl', hk'⟩
  exact ⟨k', (hsame.lookup _).trans hl', hothers fh k' o hne hk'⟩

theorem Delivers.historyRead (h : Delivers b p s i fd q ms done) (hpc : b.pcs s = .historyRead) :
    Delivers (b.historyRead s) p s i fd q ms done := by
  have hplace := h.reader.place
  rw [hpc] at hplace
  obtain ⟨heven, hsent⟩ := hplace
  have hin : (b.pcs s).InHistory = true := by rw [hpc]; rfl
  have hold : (b.pcs s).Reads = true := by rw [hpc]; rfl
  have hquiet := h.quiet hin
  obtain ⟨rs, bytes, t, hrs, hbytes, hread, hshelf, hcursor, hothers⟩ := h.reads boxSize heven
  have hnone := uncounted_of_quiet hquiet
  have hwhole : bytes = encode rs := by
    have hroom := hshelf.room
    rw [hnone, List.append_nil, ← hrs, encode_append, List.length_append] at hroom
    rw [hbytes, hnone, List.append_nil]
    exact List.take_of_length_le (Nat.le_trans (Nat.le_add_left _ _) hroom)
  subst hwhole
  rw [← List.length_append, ← encode_append] at hcursor
  have hpublisher : ∀ j message fh, b.pcs p = .pubWrite j message fh → False := by
    intro j message fh hw
    rw [hw] at hquiet
    cases hquiet
  have hmoves : ∀ (pc : Pc) (ds : List CStr), ds <+: ms →
      FollowsAt (b.clients s) (b.sent s) (t.Cursor (b.clients s).boxFd q.tail) i fd ms ds pc →
      Delivers (({ b with tfs := t } : Broker).place s (b.clients s) pc (b.sent s)) p s
        i fd q ms ds :=
    fun pc ds hsofar hplace => h.subscriber_moves rfl rfl rfl hshelf id
      (fun j message fh hw => (hpublisher j message fh hw).elim) (SameSession.refl _)
        (fun _ => h.reader.locked hin)
      hsofar hplace fun j message fh hw => (hpublisher j message fh hw).elim
  unfold Broker.historyRead
  rw [hread]
  dsimp only
  rcases eq_or_ne rs [] with rfl | hne
  · -- what was behind the offset had been counted before it was in the file
    rw [List.append_nil] at hcursor
    have hread := hmoves .historyRead done h.reader.sofar ⟨⟨heven.offset, hcursor⟩, hsent⟩
    have hback : ({ b with tfs := t } : Broker).place s (b.clients s) .historyRead (b.sent s)
      = { b with tfs := t } := by
      rw [← hpc]
      simp [place]
    rw [hback] at hread
    rw [encode_nil, List.length_nil, if_pos Nat.cast_zero]
    exact hread.historyDone hin hold ⟨heven.offset, hcursor⟩ hsent
  · have hpos : 0 < (encode rs).length := List.length_pos_of_ne_nil (mt encode_eq_nil.mp hne)
    have hsome : ¬ ((encode rs).length : Int) = 0 := by omega
    have hnn : ¬ ((encode rs).length : Int) < 0 := by omega
    rw [if_neg hsome, if_neg hnn, Int.toNat_natCast, setPc_place]
    refine hmoves _ _ h.reader.sofar ⟨rs, hne, rfl,
      ⟨hrs ▸ List.prefix_rfl, hpos, ?_, hcursor⟩, hsent⟩
    rw [heven.offset, encode_append, List.length_append, Int.natCast_add]

/-- A write to the subscriber's pipe. -/
theorem Reader.emit (h : Reader b s i fd q ms done) (bytes : List UInt8) :
    b.emit s bytes (.wrote bytes.length)
      = some (b.place s (b.clients s) (b.pcs s) (b.sent s ++ [(fd, bytes)])) := by
  have hopen : b.isOpenFd (b.clients s).clientPipe = true := by
    rw [h.pipe]
    simpa [isOpenFd] using h.opened
  rw [emit_whole hopen, wrote, h.pipe, Int.toNat_natCast, Broker.place,
    Function.update_eq_self, Function.update_eq_self]

theorem Delivers.historySendOp (h : Delivers b p s i fd q ms done)
    (hpc : b.pcs s = .historySendOp rest n)
    (hs : b.historySendOp s rest n (.wrote 1) = some b') : Delivers b' p s i fd q ms done := by
  have hplace := h.reader.place
  rw [hpc] at hplace
  obtain ⟨rs, hne, hrest, hahead, hsent⟩ := hplace
  have hold : (b.pcs s).Reads = true := by rw [hpc]; rfl
  unfold Broker.historySendOp at hs
  split at hs
  · obtain rfl := Option.some.inj hs
    exact h.crash
  · have hemit : b.emit s [opCodeSubscriber] (.wrote 1) = _ := h.reader.emit [opCodeSubscriber]
    rw [hemit] at hs
    dsimp only [Option.bind_eq_bind, Option.bind_some] at hs
    rw [if_pos rfl] at hs
    obtain rfl := Option.some.inj hs
    rw [place_setPc]
    refine h.subscriber_stands hold (SameSession.refl _) rfl
      (fun _ => by rw [hpc]; rfl) h.reader.sofar
      ⟨rs, hne, hrest, hahead, ?_⟩
    rw [hsent]

/-- The frame of a message is complete. -/
theorem frames_concat
    (hsent : sent = done.flatMap (frameLines fd) ++ [(fd, [opCodeSubscriber])]) (m : CStr) :
    sent ++ [(fd, zeroPadded m.bytes messageLength)] = (done ++ [m]).flatMap (frameLines fd) := by
  rw [hsent, List.append_assoc, List.flatMap_append, List.flatMap_singleton]
  rfl

theorem Delivers.historySendMessage (h : Delivers b p s i fd q ms done)
    (hpc : b.pcs s = .historySendMessage rest n)
    (hs : b.historySendMessage s rest n (.wrote messageLength) = some b') :
    ∃ ds, Delivers b' p s i fd q ms ds := by
  have hplace := h.reader.place
  rw [hpc] at hplace
  obtain ⟨rs, hne, rfl, hahead, hsent⟩ := hplace
  have hold : (b.pcs s).Reads = true := by rw [hpc]; rfl
  cases rs with
  | nil => exact absurd rfl hne
  | cons m rs =>
    have hahead := hahead.next
    have hdone : done ++ [m] <+: ms := (List.prefix_append _ _).trans hahead.stored
    have hemit := h.reader.emit (zeroPadded m.bytes messageLength)
    rw [length_zeroPadded, frames_concat hsent] at hemit
    unfold Broker.historySendMessage at hs
    rw [ofBytes_encode_cons, drop_encode_cons, hemit] at hs
    refine ⟨done ++ [m], ?_⟩
    dsimp only [Option.bind_eq_bind, Option.bind_some] at hs
    rw [if_pos rfl] at hs
    split at hs
    · next hlast =>
      obtain rfl := Option.some.inj hs
      rw [encode_eq_nil.mp hlast] at hahead
      rw [place_clients, place_setClient, place_setPc]
      exact h.subscriber_stands hold ⟨rfl, rfl, rfl⟩ rfl (fun _ => by rw [hpc]; rfl) hdone
        ⟨hahead.even, rfl⟩
    · next hmore =>
      obtain rfl := Option.some.inj hs
      rw [place_setPc]
      exact h.subscriber_stands hold (SameSession.refl _) rfl (fun _ => by rw [hpc]; rfl) hdone
        ⟨rs, mt encode_eq_nil.mpr hmore, rfl, hahead, rfl⟩

/-- The test of the wait loop: something is counted behind the offset, or the subscriber
sleeps. -/
theorem Delivers.followLock (h : Delivers b p s i fd q ms done) (hpc : b.pcs s = .followLock j)
    (hs : b.followLock s j = some b') : Delivers b' p s i fd q ms done := by
  have hplace := h.reader.place
  rw [hpc] at hplace
  obtain ⟨rfl, heven, hsent⟩ := hplace
  have hold : (b.pcs s).Reads = true := by rw [hpc]; rfl
  unfold Broker.followLock at hs
  split at hs
  · split at hs
    · obtain rfl := Option.some.inj hs
      rw [setPc_place]
      exact h.subscriber_stands hold (SameSession.refl _) rfl
        (fun hno => nomatch hno) h.reader.sofar
        ⟨rfl, heven, hsent⟩
    · next hunread =>
      obtain rfl := Option.some.inj hs
      rw [setPc_place]
      refine h.subscriber_stands hold (SameSession.refl _) rfl
        (fun hno => nomatch hno) h.reader.sofar
        ⟨rfl, heven, hsent, ?_⟩
      refine Nat.lt_of_le_of_ne h.reader.sofar.length_le fun hlen => hunread ?_
      have hsame : done = ms := h.reader.sofar.eq_of_length hlen
      have hlt : (b.boxes j).boxSize < word := by
        have hroom := h.shelf.room
        rw [encode_append, List.length_append] at hroom
        rw [h.shelf.counted]
        exact Nat.lt_of_le_of_lt (Nat.le_trans (Nat.le_add_right _ _) hroom) (by decide)
      rw [unread, heven.offset, hsame, ← h.shelf.counted, ofSsize_natCast hlt]
      exact (subSize_eq_zero_iff hlt hlt).mpr rfl
  · cases hs

theorem Delivers.wake (h : Delivers b p s i fd q ms done) (hpc : b.pcs s = .asleep j n) :
    Delivers (b.setPc s (.followLock j)) p s i fd q ms done := by
  have hplace := h.reader.place
  rw [hpc] at hplace
  rw [setPc_place]
  exact h.subscriber_stands (by rw [hpc]; rfl) (SameSession.refl _) rfl
    (fun hno => nomatch hno) h.reader.sofar hplace

/-- The second loop reads one message. -/
theorem Delivers.followRead (h : Delivers b p s i fd q ms done) (hpc : b.pcs s = .followRead j)
    (hone : b.TakesOne (s, .none)) : Delivers (b.followRead s j) p s i fd q ms done := by
  have hplace := h.reader.place
  rw [hpc] at hplace
  obtain ⟨rfl, heven, hsent, hlt⟩ := hplace
  have hold : (b.pcs s).Reads = true := by rw [hpc]; rfl
  obtain ⟨m, c, hc, htake⟩ := hone j hpc
  obtain ⟨rs, bytes, t, hrs, hbytes, hread, hshelf, hcursor, hothers⟩ := h.reads messageLength heven
  have hfile : c = encode (ms ++ uncounted (b.pcs p)) := by
    rw [fileOf, h.shelf.path] at hc
    exact Option.some.inj (hc.symm.trans h.shelf.file)
  obtain ⟨rs', hrs', hdrop⟩ := h.shelf.drop h.reader.sofar
  obtain rfl : rs' = rs := List.append_cancel_left (hrs'.trans hrs.symm)
  rw [heven.offset, Int.toNat_natCast, hfile, hdrop, ← hbytes] at htake
  -- Something is left to read, since the loop saw the size ahead of the offset.
  cases rs' with
  | nil =>
    rw [List.append_nil] at hrs
    exact absurd hlt (hrs ▸ Nat.lt_irrefl _)
  | cons m' rs =>
    -- The read stops at the end of one message, so what it took is the first of the rest.
    obtain rfl : m = m' := by
      rw [hbytes, List.cons_append] at htake
      exact eq_of_take_encode htake
    have hlen : bytes.length = m.length + 1 := by
      rw [htake, List.length_append]
      rfl
    have hsome : ¬ (bytes.length : Int) = 0 := by omega
    have hnn : ¬ (bytes.length : Int) < 0 := by omega
    have hsplit : (encode (done ++ [m])).length = (encode done).length + bytes.length := by
      rw [encode_concat, List.length_append, htake]
    unfold Broker.followRead
    rw [hread]
    dsimp only
    rw [if_neg hsome, if_neg hnn, Int.toNat_natCast, setPc_place]
    refine h.subscriber_moves rfl rfl rfl hshelf id
      (fun j' message fh hw k hk => hothers fh k (h.handles j' message fh hw hold) hk)
        (SameSession.refl _)
      (fun hno => Bool.noConfusion hno) h.reader.sofar ⟨rfl, m, ?_, ⟨?_, ?_, ?_, ?_⟩, hsent⟩
      fun j' message fh hw _ => h.handles j' message fh hw hold
    · rw [htake, zeroPadded_terminated]
    · rw [← hrs]
      exact ⟨rs, (List.append_cons done m rs).symm⟩
    · rw [hlen]
      exact Nat.succ_pos _
    · rw [heven.offset, hsplit, Int.natCast_add]
    · rw [hsplit]
      exact hcursor

theorem Delivers.followSendOp (h : Delivers b p s i fd q ms done)
    (hpc : b.pcs s = .followSendOp j message n)
    (hs : b.followSendOp s j message n (.wrote 1) = some b') : Delivers b' p s i fd q ms done := by
  have hplace := h.reader.place
  rw [hpc] at hplace
  obtain ⟨rfl, m, hm, hahead, hsent⟩ := hplace
  have hemit : b.emit s [opCodeSubscriber] (.wrote 1) = _ := h.reader.emit [opCodeSubscriber]
  unfold Broker.followSendOp at hs
  rw [hemit] at hs
  dsimp only [Option.bind_eq_bind, Option.bind_some] at hs
  rw [if_neg (by decide), if_pos rfl] at hs
  obtain rfl := Option.some.inj hs
  rw [place_setPc]
  refine h.subscriber_stands (by rw [hpc]; rfl) (SameSession.refl _) rfl
    (fun hno => nomatch hno) h.reader.sofar
    ⟨rfl, m, hm, hahead, ?_⟩
  rw [hsent]

theorem Delivers.followSendMessage (h : Delivers b p s i fd q ms done)
    (hpc : b.pcs s = .followSendMessage j message n)
    (hs : b.followSendMessage s j message n (.wrote messageLength) = some b') :
    ∃ ds, Delivers b' p s i fd q ms ds := by
  have hplace := h.reader.place
  rw [hpc] at hplace
  obtain ⟨rfl, m, rfl, hahead, hsent⟩ := hplace
  have hemit := h.reader.emit (zeroPadded m.bytes messageLength)
  rw [length_zeroPadded, frames_concat hsent] at hemit
  unfold Broker.followSendMessage at hs
  rw [hemit] at hs
  dsimp only [Option.bind_eq_bind, Option.bind_some] at hs
  rw [if_neg (by decide), if_pos rfl] at hs
  obtain rfl := Option.some.inj hs
  rw [place_clients, place_setClient, place_setPc]
  exact ⟨done ++ [m], h.subscriber_stands (by rw [hpc]; rfl) ⟨rfl, rfl, rfl⟩
    rfl (fun hno => nomatch hno)
    hahead.stored ⟨rfl, hahead.next.even, rfl⟩⟩

theorem Delivers.subscriber_step (h : Delivers b p s i fd q ms done) {a : Answer}
    (hok : Alongside p s b (s, a))
    (hone : b.TakesOne (s, a)) (hs : b.step (s, a) = some b') :
    ∃ ds, Delivers b' p s i fd q ms ds := by
  obtain ⟨-, -, hs⟩ := step_eq_some.mp hs
  dsimp only at hs
  have hplace := h.reader.place
  have hwrites := hok.writes
  dsimp only at hwrites
  -- `place` leaves only the sections of the two loops.
  cases hpc : b.pcs s with
  | historyLock j =>
    rw [hpc] at hs
    cases a with
    | none => exact ⟨done, h.historyLock hpc hs⟩
    | _ => cases hs
  | historyOpen =>
    rw [hpc] at hs
    cases a with
    | none =>
      obtain rfl := Option.some.inj hs
      exact ⟨done, h.historyOpen hpc (hok.opens hpc)⟩
    | _ => cases hs
  | historyTest =>
    rw [hpc] at hs
    cases a with
    | none =>
      obtain rfl := Option.some.inj hs
      exact ⟨done, h.historyTest hpc⟩
    | _ => cases hs
  | historyRead =>
    rw [hpc] at hs
    cases a with
    | none =>
      obtain rfl := Option.some.inj hs
      exact ⟨done, h.historyRead hpc⟩
    | _ => cases hs
  | historySendOp rest n =>
    rw [hpc] at hs hwrites
    cases a with
    | wrote result =>
      obtain rfl := hwrites result rfl
      exact ⟨done, h.historySendOp hpc hs⟩
    | _ => cases hs
  | historySendMessage rest n =>
    rw [hpc] at hs hwrites
    cases a with
    | wrote result =>
      obtain rfl := hwrites result rfl
      exact h.historySendMessage hpc hs
    | _ => cases hs
  | followLock j =>
    rw [hpc] at hs
    cases a with
    | none => exact ⟨done, h.followLock hpc hs⟩
    | _ => cases hs
  | asleep j n =>
    rw [hpc] at hs
    cases a with
    | wake =>
      obtain rfl := Option.some.inj hs
      exact ⟨done, h.wake hpc⟩
    | _ => cases hs
  | followRead j =>
    rw [hpc] at hs
    cases a with
    | none =>
      obtain rfl := Option.some.inj hs
      exact ⟨done, h.followRead hpc hone⟩
    | _ => cases hs
  | followSendOp j message n =>
    rw [hpc] at hs hwrites
    cases a with
    | wrote result =>
      obtain rfl := hwrites result rfl
      exact ⟨done, h.followSendOp hpc hs⟩
    | _ => cases hs
  | followSendMessage j message n =>
    rw [hpc] at hs hwrites
    cases a with
    | wrote result =>
      obtain rfl := hwrites result rfl
      exact h.followSendMessage hpc hs
    | _ => cases hs
  | _ =>
    rw [hpc] at hplace
    exact hplace.elim

/-! ## Runs -/

/-- A section of either session adds the message that it counts, and nothing else. -/
theorem Delivers.step (h : Delivers b p s i fd q ms done) {e : Nat × Answer}
    (hok : Alongside p s b e)
    (hone : b.TakesOne e) (hs : b.step e = some b') :
    ∃ ds, Delivers b' p s i fd q (ms ++ uncounted (b.pcs e.1)) ds := by
  obtain ⟨w, a⟩ := e
  rcases hok.worker with hw | hw
  · obtain rfl : w = p := hw
    exact ⟨done, h.publisher_step hok hs⟩
  · obtain rfl : w = s := hw
    have hnone : uncounted (b.pcs w) = [] := by
      have hplace := h.reader.place
      cases hpc : b.pcs w with
      | pubCount j message => rw [hpc] at hplace; exact hplace.elim
      | _ => rfl
    obtain ⟨ds, hds⟩ := h.subscriber_step hok hone hs
    refine ⟨ds, ?_⟩
    rw [hnone, List.append_nil]
    exact hds

/-- A section of the two sessions in which the second loop, if it reads, takes one message. -/
def Delivering (p s : Nat) (b : Broker) (e : Nat × Answer) : Prop :=
  Alongside p s b e ∧ b.TakesOne e

theorem HasMessages.unique (h : b.HasMessages i ms) (h' : b.HasMessages i ns) : ms = ns := by
  obtain ⟨c, hc, hms⟩ := h
  obtain ⟨c', hc', hns⟩ := h'
  obtain rfl : c = c' := Option.some.inj (hc.symm.trans hc')
  exact encode_inj (hms.symm.trans hns)

theorem Linked.run {b₀ : Broker} (h : Linked b₀ p s i fd ms)
    (hrun : Reaches Broker.step (Delivering p s) b₀ b) :
    ∃ ns ds, Delivers b p s i fd (b₀.path i) ns ds := by
  refine hrun.invariant (I := fun b => ∃ ns ds, Delivers b p s i fd (b₀.path i) ns ds)
    ⟨ms, [], h.delivers⟩ ?_
  rintro x e y ⟨ns, ds, hx⟩ ⟨hok, hone⟩ hs
  obtain ⟨ds', hy⟩ := hx.step hok hone hs
  exact ⟨_, ds', hy⟩

/-- A publisher and a new subscriber of one box take their sections in any order. As long as
each read of the second loop takes one message and its NUL, the subscriber has decoded the
messages of the box up to some point, each once and in order, and all of them when it has
caught up; and the messages of the box are those it held, and those that were counted since. -/
theorem delivered_in_order (b₀ b : Broker) (p s i fd : Nat) (ms : List CStr)
    (h : Linked b₀ p s i fd ms)
    (hrun : Reaches Broker.step (Delivering p s) b₀ b) :
    b.InOrder s i fd ∧ ∀ e b', Delivering p s b e → b.step e = some b' → ∀ ns, b.HasMessages i ns →
      b'.HasMessages i (ns ++ uncounted (b.pcs e.1)) := by
  obtain ⟨ns, ds, hb⟩ := h.run hrun
  refine ⟨hb.inOrder, fun e b' hok hs ns' hns' => ?_⟩
  obtain ⟨ds', hb'⟩ := hb.step hok.1 hok.2 hs
  rw [hns'.unique hb.shelf.hasMessages]
  exact hb'.shelf.hasMessages

/-! ## A run -/

/-- Both loops wait: the publisher's for an operation code, the subscriber's for the lock.
So far `n` open file entries are taken. -/
structure Waiting (b : Broker) (p s i fd : Nat) (q : CStr) (ms done : List CStr)
    (n : Nat) : Prop where
  delivers : Delivers b p s i fd q ms done
  robust : Robust b.tfs
  running : b.stopped = false
  publisher : p < b.maxSessions
  subscriber : s < b.maxSessions
  waits : ∃ message, b.pcs p = .pubOpcode message
  follows : b.pcs s = .followLock i
  unlocked : (b.boxes i).lock = none
  box : (b.clients p).box = some i
  pipe : b.isOpenFd (b.clients p).clientPipe = true
  entries : ∀ j < maxBoxes, b.tfs.freeOpenFileEntries j = .free ↔ n ≤ j
  block : ms = [] → b.tfs.freeBlock ≠ none

theorem freeHandle_of_entries (hp : t.fsParams = brokerParams)
    (h : ∀ j < maxBoxes, t.freeOpenFileEntries j = .free ↔ n ≤ j) (hn : n < maxBoxes) :
    t.freeHandle = some n := by
  refine firstIndex_eq_some.mpr ⟨?_, ?_, fun j hj => ?_⟩
  · rw [hp]
    exact hn
  · rw [(h n hn).mpr (Nat.le_refl n)]
    rfl
  · cases hfree : t.freeOpenFileEntries j with
    | free => exact absurd ((h j (hj.trans hn)).mp hfree) (Nat.not_le.mpr hj)
    | taken => rfl

/-- One more entry is taken. -/
theorem entries_opened {t' : Fs.State} {path : Option CStr} {mode : Nat} (hwf : WellFormed t)
    (hp : t.fsParams = brokerParams) (h : ∀ j < maxBoxes, t.freeOpenFileEntries j = .free ↔ n ≤ j)
    (hn : n < maxBoxes)
    (hopen : tfsOpen t path mode = .ok (t', (j : Int))) :
    ∀ k < maxBoxes, t'.freeOpenFileEntries k = .free ↔ n + 1 ≤ k := by
  obtain ⟨r, hr, hopened⟩ := tfsOpen_cases hwf.toFilesWf path mode
  obtain rfl : r = (t', (j : Int)) := Except.ok.inj (hr.symm.trans hopen)
  rcases opened_entries hopened with ⟨hrefused, -⟩ | ⟨j', -, hfree, hentries⟩
  · exact absurd hrefused (by omega)
  · rw [freeHandle_of_entries hp h hn] at hfree
    obtain rfl := Option.some.inj hfree
    intro k hk
    rw [hentries]
    rcases eq_or_ne k n with rfl | hne
    · rw [Function.update_self]
      exact iff_of_false (by decide) (by omega)
    · rw [Function.update_of_ne hne, h k hk]
      omega

/-- A section of the two sessions that does not read from the pipe of the publisher. -/
def Unread (p s : Nat) (b : Broker) (e : Nat × Answer) : Prop :=
  Delivering p s b e ∧ ∀ bytes, e ≠ (p, .read bytes)

/-- A section of the publisher. -/
theorem publisher_section {a : Answer} (hstop : b.stopped = false)
    (hp : p < b.maxSessions) (hpc : b.pcs p = pc)
    (hplace : PublishesTo i pc) (ha : ∀ r, a ≠ .request r) (ha' : ∀ result, a ≠ .wrote result)
    (hfits : ∀ j message fh, pc = .pubWrite j message fh → ∀ c, b.fileOf j = some c →
      c.length + ((messageStr message).length + 1) ≤ boxSize)
    (hs : b.stepWorker p pc a = some x) : Delivering p s b (p, a) ∧ b.step (p, a) = some x := by
  refine ⟨⟨⟨Or.inl rfl, ha, ?_, ?_, fun result hr => absurd hr (ha' result)⟩, ?_⟩, ?_⟩
  · intro j message fh hw
    exact hfits j message fh (hpc.symm.trans hw)
  · intro hw
    rw [hpc.symm.trans hw] at hplace
    exact hplace.elim
  · intro j hw
    rw [hpc.symm.trans hw] at hplace
    exact hplace.elim
  · rw [step_of hstop hp, hpc]
    exact hs

/-- Worker `p` has moved to `pc`, and otherwise only the boxes and TecnicoFS have changed. -/
structure Onward (b x : Broker) (p : Nat) (pc : Pc) : Prop where
  stopped : x.stopped = b.stopped
  maxSessions : x.maxSessions = b.maxSessions
  clients : x.clients = b.clients
  fds : x.fds = b.fds
  pcs : x.pcs = Function.update b.pcs p pc

theorem Onward.trans {y : Broker} {pc' : Pc} (h : Onward b x p pc) (h' : Onward x y p pc') :
    Onward b y p pc' where
  stopped := h'.stopped.trans h.stopped
  maxSessions := h'.maxSessions.trans h.maxSessions
  clients := h'.clients.trans h.clients
  fds := h'.fds.trans h.fds
  pcs := by rw [h'.pcs, h.pcs, Function.update_idem]

theorem Onward.stands (h : Onward b x p pc) : x.pcs p = pc := by rw [h.pcs, Function.update_self]

/-- A section of a publisher that has otherwise only touched the boxes and TecnicoFS. -/
theorem Waiting.section (h : Waiting b p s i fd q ms done n) {y : Broker}
    {a : Answer} (hx : Onward b x p pc)
    (hplace : PublishesTo i pc) (ha : ∀ r, a ≠ .request r) (ha' : ∀ result, a ≠ .wrote result)
    (hfits : ∀ j message fh, pc = .pubWrite j message fh → ∀ c, x.fileOf j = some c →
      c.length + ((messageStr message).length + 1) ≤ boxSize)
    (hs : x.stepWorker p pc a = some y) : Delivering p s x (p, a) ∧ x.step (p, a) = some y :=
  publisher_section (hx.stopped.trans h.running) (hx.maxSessions ▸ h.publisher)
    hx.stands hplace ha ha' hfits hs

/-- The publisher reads an operation code and a whole message. -/
theorem Waiting.receives (h : Waiting b p s i fd q ms done n)
    (hlen : message.length = messageLength) :
    ∃ old, (Delivering p s b (p, .read [opCodePublisher]) ∧
        b.step (p, .read [opCodePublisher]) = some (b.setPc p (.pubMessage old))) ∧
      (Delivering p s (b.setPc p (.pubMessage old)) (p, .read message) ∧
        (b.setPc p (.pubMessage old)).step (p, .read message) = some
        (b.setPc p (.pubLock i message))) ∧
      Delivers (b.setPc p (.pubLock i message)) p s i fd q ms done := by
  obtain ⟨old, hpc⟩ := h.waits
  have hold : old.length = messageLength := by
    have hplace := h.delivers.writer.place
    rwa [hpc] at hplace
  have hon : Onward b b p (.pubOpcode old) :=
    ⟨rfl, rfl, rfl, rfl, by rw [← hpc, Function.update_eq_self]⟩
  have hopcode : b.pubOpcode p old [opCodePublisher] = some (b.setPc p (.pubMessage old)) := rfl
  have hon₁ : Onward b (b.setPc p (.pubMessage old)) p (.pubMessage old) :=
    ⟨rfl, rfl, rfl, rfl, rfl⟩
  have hmessage : (b.setPc p (.pubMessage old)).pubMessage p old message
    = some (b.setPc p (.pubLock i message)) := by
    have hne : message ≠ [] := by
      rintro rfl
      cases hlen
    have hdrop : message ++ old.drop message.length = message := by
      rw [List.drop_of_length_le (by rw [hold, hlen]), List.append_nil]
    have htwice : (b.setPc p (.pubMessage old)).setPc p (.pubLock i message)
      = b.setPc p (.pubLock i message) := by
      simp [setPc]
    have hread : canRead message messageLength = true := decide_eq_true (Nat.le_of_eq hlen)
    rw [Broker.pubMessage, if_pos hread, if_neg hne,
      show ((b.setPc p (.pubMessage old)).clients p).box = some i from h.box, hdrop]
    exact congrArg some htwice
  have h₁ := h.delivers.pubOpcode hpc hopcode
  exact ⟨old, h.section (a := .read [opCodePublisher]) hon hold (by simp)
    (by simp) (by simp) hopcode,
    h.section (a := .read message) hon₁ hold (by simp) (by simp) (by simp) hmessage,
    h₁.pubMessage hon₁.stands hmessage⟩

/-- A section without an answer reads from no pipe. -/
theorem storing (hrun : Reaches Broker.step (Unread p s) b x)
    (hs : Delivering p s x (p, .none) ∧ x.step (p, .none) = some y) :
    Reaches Broker.step (Unread p s) b y :=
  hrun.next ⟨hs.1, by simp⟩ hs.2

/-- With a message in its buffer it takes the lock, opens the file and appends the message. -/
theorem Waiting.appends (h : Waiting b p s i fd q ms done n) (hn : n < maxBoxes)
    (hlen : message.length = messageLength)
    (hroom : (encode ms).length + ((messageStr message).length + 1) ≤ boxSize) :
    ∃ x, Reaches Broker.step (Unread p s) (b.setPc p (.pubLock i message)) x ∧
    Delivers x p s i fd q ms done ∧
      Onward b x p (.pubCount i message) ∧ Robust x.tfs ∧
      ∀ k < maxBoxes, x.tfs.freeOpenFileEntries k = .free ↔ n + 1 ≤ k := by
  obtain ⟨-, -, -, h₂⟩ := h.receives hlen
  have hon₂ : Onward b (b.setPc p (.pubLock i message)) p (.pubLock i message) :=
    ⟨rfl, rfl, rfl, rfl, rfl⟩
  have hlocks : (b.setPc p (.pubLock i message)).lockBox p i (.pubOpen i message) = _ :=
    if_pos h.unlocked
  have h₃ := h₂.pubLock hon₂.stands hlocks
  have hrun₃ :=
    storing .refl (h.section (a := .none) hon₂ ⟨rfl, hlen⟩ (by simp) (by simp) (by simp) hlocks)
  generalize hx₃ :
    ((b.setPc p (.pubLock i message)).setBox i { (b.setPc p (.pubLock i message)).boxes i with
    lock := some p }).setPc p (.pubOpen i message) = x₃ at h₃ hrun₃
  have hon₃ : Onward b x₃ p (.pubOpen i message) := by
    rw [← hx₃]
    exact hon₂.trans ⟨rfl, rfl, rfl, rfl, rfl⟩
  have htfs₃ : x₃.tfs = b.tfs := by rw [← hx₃]; rfl
  -- the file is opened
  have hshelf := h₃.shelf
  have hfile := hshelf.file
  rw [show uncounted (x₃.pcs p) = [] by rw [hon₃.stands]; rfl, List.append_nil] at hfile
  have hfree := freeHandle_of_entries (htfs₃ ▸ hshelf.params) h.entries hn
  have hopened := @tfsOpen_cursor _ _ hshelf.wf hshelf.valid _ hfile
    tfsOAppend _ (Or.inl ⟨rfl, rfl⟩)
  rw [← hshelf.path] at hopened
  rcases hopened with ⟨-, hnone⟩ | ⟨t, k, -, hopen, hwft, hsame, hcursor, -⟩
  · rw [htfs₃, hfree] at hnone
    cases hnone
  have hrobust₃ : Robust x₃.tfs := htfs₃ ▸ h.robust
  have hrobust : Robust t := (called_open hrobust₃ hopen).robust hrobust₃
  have hentries := entries_opened hshelf.wf hshelf.params (htfs₃ ▸ h.entries) hn hopen
  have h₄ := h₃.pubOpen hon₃.stands
  have hrun₄ :=
    storing hrun₃ (h.section (a := .none) hon₃ ⟨rfl, hlen⟩ (by simp) (by simp) (by simp) rfl)
  rw [pubOpen_opened hopen] at h₄ hrun₄
  generalize hx₄ : ({ x₃ with tfs := t } : Broker).setPc p (.pubWrite i message k) = x₄ at h₄ hrun₄
  have hon₄ : Onward b x₄ p (.pubWrite i message k) := by
    rw [← hx₄]
    exact hon₃.trans ⟨rfl, rfl, rfl, rfl, rfl⟩
  have htfs₄ : x₄.tfs = t := by rw [← hx₄]; rfl
  -- the message is written
  have hshelf₄ := h₄.shelf
  have hfile₄ := hshelf₄.file
  rw [show uncounted (x₄.pcs p) = [] by rw [hon₄.stands]; rfl, List.append_nil] at hfile₄
  have hfits : ∀ c, x₄.fileOf i = some c →
    c.length + ((messageStr message).length + 1) ≤ boxSize := by
    intro c hc
    rw [fileOf, hshelf₄.path] at hc
    obtain rfl : c = encode ms := Option.some.inj (hc.symm.trans hfile₄)
    exact hroom
  have hword : (messageStr message).length + 1 < 9223372036854775808 := by
    have hle := messageStr_le hlen
    unfold messageLength at hle
    omega
  have hall : (messageStr message).length + 1
      = min ((messageStr message).length + 1) (x₄.tfs.fsParams.blockSize - (encode ms).length) := by
    have hblock : x₄.tfs.fsParams.blockSize = boxSize := congrArg TfsParams.blockSize hshelf₄.params
    omega
  rcases tfsWrite_append hshelf₄.wf hfile₄ (h₄.writer.cursor i message k hon₄.stands)
    (messageStr_fits message) hword
    hall with ⟨-, -, hnil, hfull⟩ | ⟨u, hwrite, -, -⟩
  · rw [htfs₄, hsame.freeBlock, htfs₃] at hfull
    exact absurd hfull (h.block (encode_eq_nil.mp hnil))
  have hcalls : Calls x₄ p (.pubWrite i message k) u := .pubWrite hwrite
  have hrobust₄ : Robust x₄.tfs := htfs₄ ▸ hrobust
  have h₅ := h₄.pubWrite hon₄.stands hfits
  have hrun₅ := storing hrun₄ (h.section (a := .none) hon₄ ⟨rfl, hlen⟩ (by simp) (by simp)
    (by rintro j message' fh ⟨⟩; exact hfits) rfl)
  rw [pubWrite_whole hwrite rfl] at h₅ hrun₅
  refine ⟨_, hrun₅, h₅, hon₄.trans ⟨rfl, rfl, rfl, rfl, rfl⟩, hcalls.robust hrobust₄, ?_⟩
  rw [show (({ x₄ with tfs := u } : Broker).setPc p (.pubCount i message)).tfs = u from rfl,
    hcalls.entries hrobust₄ rfl, htfs₄]
  exact hentries

/-- It counts the message, and both loops wait again. -/
theorem Waiting.stores (h : Waiting b p s i fd q ms done n) (hn : n < maxBoxes)
    (hlen : message.length = messageLength)
    (hroom : (encode ms).length + ((messageStr message).length + 1) ≤ boxSize) :
    ∃ b', Reaches Broker.step (Unread p s) (b.setPc p (.pubLock i message)) b' ∧
      Waiting b' p s i fd q (ms ++ [messageStr message]) done (n + 1) := by
  obtain ⟨x, hrun, hx, hon, hrobust, hentries⟩ := h.appends hn hlen hroom
  have hps := h.delivers.apart
  have hcounts := h.section (a := .none) hon ⟨rfl, hlen⟩ (by simp) (by simp) (by simp) rfl
  refine ⟨_, storing hrun hcounts, hx.pubCount hon.stands, hrobust, ?_, ?_, ?_,
    ⟨message, setPc_self ..⟩, ?_, ?_, ?_, ?_,
    hentries, fun hnil => absurd hnil (List.append_ne_nil_of_right_ne_nil _ (List.cons_ne_nil _ _))⟩
  · exact hon.stopped.trans h.running
  · exact hon.maxSessions ▸ h.publisher
  · exact hon.maxSessions ▸ h.subscriber
  · have hfollows : x.pcs s = .followLock i := by
      rw [hon.pcs, Function.update_of_ne hps.symm]
      exact h.follows
    exact (@pubCount_beside x s p i hps.symm message).stays.keep (P := fun pc => pc = .followLock i)
      (fun _ _ hno => nomatch hno) hfollows
  · exact congrArg Box.lock (setBox_self ..)
  · exact (congrArg (fun f => (f p).box) hon.clients).trans h.box
  · have hopen := h.pipe
    rw [isOpenFd] at hopen ⊢
    rw [show (x.pubCount p i message).fds = b.fds from hon.fds,
      show (x.pubCount p i message).clients = b.clients from hon.clients]
    exact hopen

/-- The publisher publishes one more message. -/
theorem Waiting.publish (h : Waiting b p s i fd q ms done n) (hn : n < maxBoxes)
    (hm : m.length ≤ messageLength)
    (hroom : (encode ms).length + (m.length + 1) ≤ boxSize) :
    ∃ b', Reaches Broker.step (Delivering p s) b b' ∧
    Waiting b' p s i fd q (ms ++ [m]) done (n + 1) := by
  obtain ⟨message, hlen, rfl⟩ := exists_message hm
  obtain ⟨old, hopcode, hmessage, -⟩ := h.receives hlen
  obtain ⟨b', hrun, hb'⟩ := h.stores hn hlen hroom
  have hreceives := (Reaches.refl.next hopcode.1 hopcode.2).next hmessage.1 hmessage.2
  exact ⟨b', hreceives.trans (hrun.mono fun _ _ hok => hok.1), hb'⟩

/-- A read of the second loop takes one message and its NUL if `rs` is unread. -/
def OneMessage (rs : List CStr) : Prop :=
  ∃ m : CStr, (encode rs).take messageLength = m.bytes ++ [0]

/-- A section of the subscriber while `rs` is unread. It takes one message whenever a read
of `rs` does. -/
def Reading (p s : Nat) (rs : List CStr) (b : Broker) (e : Nat × Answer) : Prop :=
  e.1 = s ∧ Alongside p s b e ∧ (OneMessage rs → b.TakesOne e)

/-- A section of the subscriber. -/
theorem subscriber_section {a : Answer} (hstop : b.stopped = false)
    (hs : s < b.maxSessions) (hpc : b.pcs s = pc)
    (hplace : ∀ j message fh, pc ≠ .pubWrite j message fh) (ha : ∀ r, a ≠ .request r)
    (hopens : pc = .historyOpen → b.tfs.freeHandle ≠ none)
    (hwrites : ∀ result, a = .wrote result → result = wholeWrite pc)
    (hone : OneMessage rs → b.TakesOne (s, a)) (hx : b.stepWorker s pc a = some x) :
    Reaches Broker.step (Reading p s rs) b x := by
  refine Reaches.refl.next (e := (s, a)) ⟨rfl, ⟨Or.inr rfl, ha, ?_, ?_, ?_⟩, hone⟩ ?_
  · intro j message fh hw
    exact absurd (hpc.symm.trans hw) (hplace j message fh)
  · exact fun hw => hopens (hpc.symm.trans hw)
  · rw [hpc]
    exact hwrites
  · rw [step_of hstop hs, hpc]
    exact hx

/-- Once the second loop has read `bytes`, it sends them in one frame. -/
theorem sends_frame {bytes : List UInt8} (hstop : b.stopped = false) (hs : s < b.maxSessions)
    (hpipe : c.clientPipe = (fd : Int)) (hfd : b.fds fd = true)
    (hbytes : bytes.length = messageLength) :
    Reaches Broker.step (Reading p s rs) (b.place s c (.followSendOp i bytes n) sent)
      (b.place s { c with offset := c.offset + n } (.followLock i)
        (sent ++ [(fd, [opCodeSubscriber]), (fd, bytes)])) := by
  have hop : (b.place s c (.followSendOp i bytes n) sent).followSendOp s i bytes n (.wrote 1)
      = some (b.place s c (.followSendMessage i bytes n) (sent ++ [(fd, [opCodeSubscriber])])) := by
    rw [Broker.followSendOp, emit_place hpipe hfd (List.length_singleton ..)]
    dsimp only [Option.bind_eq_bind, Option.bind_some]
    rw [if_neg (by decide), if_pos rfl, place_setPc]
    rfl
  have hmessage : (b.place s c (.followSendMessage i bytes n)
      (sent ++ [(fd, [opCodeSubscriber])])).followSendMessage s i
      bytes n (.wrote messageLength) = some
        (b.place s { c with offset := c.offset + n } (.followLock i)
        (sent ++ [(fd, [opCodeSubscriber]), (fd, bytes)])) := by
    rw [Broker.followSendMessage, emit_place hpipe hfd hbytes, List.append_assoc]
    dsimp only [Option.bind_eq_bind, Option.bind_some]
    rw [if_neg (by decide), if_pos rfl, place_clients, place_setClient, place_setPc]
    rfl
  have hsends : ∀ (pc : Pc) {lines : List (Nat × List UInt8)} {result : WriteResult} {y : Broker},
      (∀ j, pc ≠ .followRead j) → (∀ j message fh, pc ≠ .pubWrite j message fh) →
      pc ≠ .historyOpen →
      result = wholeWrite pc → (b.place s c pc lines).stepWorker s pc (.wrote result) = some y →
      Reaches Broker.step (Reading p s rs) (b.place s c pc lines) y := by
    intro pc lines result y hread hwrite hopens hwhole hy
    refine subscriber_section (a := .wrote result) hstop hs place_pcs hwrite (by simp)
      (fun h => absurd h hopens) ?_
      (fun _ j h => absurd (place_pcs.symm.trans h) (hread j)) hy
    rintro result' ⟨⟩
    exact hwhole
  exact (hsends (.followSendOp i bytes n) (by simp) (by simp) (by simp) rfl hop).trans
    (hsends (.followSendMessage i bytes n) (by simp) (by simp) (by simp) rfl hmessage)

/-- The second loop reads as much of `rs` as it can, and sends it as one message. -/
theorem Waiting.reads (h : Waiting b p s i fd q (done ++ rs) done n) (hne : rs ≠ []) :
    ∃ x, Reaches Broker.step (Reading p s rs) b x ∧ x.HasMessages i (done ++ rs) ∧
      (x.boxes i).boxSize = (encode (done ++ rs)).length ∧
      x.sent s = done.flatMap (frameLines fd) ++
        [(fd, [opCodeSubscriber]),
          (fd, zeroPadded ((encode rs).take messageLength) messageLength)] ∧
      (x.clients s).offset =
      ((encode done).length + ((encode rs).take messageLength).length : Nat) := by
  have hreader := h.delivers.reader
  have hplace := hreader.place
  rw [h.follows] at hplace
  obtain ⟨-, heven, hsent⟩ := hplace
  obtain ⟨old, hwaits⟩ := h.waits
  have hpos : 0 < (encode rs).length := List.length_pos_of_ne_nil (mt encode_eq_nil.mp hne)
  -- something is counted behind the offset
  have hunread : ¬ b.unread s i = 0 := by
    have hlt : (encode (done ++ rs)).length < word := by
      have hroom := h.delivers.shelf.room
      rw [hwaits, show uncounted (.pubOpcode old) = [] from rfl, List.append_nil] at hroom
      exact Nat.lt_of_le_of_lt hroom (by decide)
    have hlength : (encode (done ++ rs)).length = (encode done).length + (encode rs).length := by
      rw [encode_append, List.length_append]
    rw [unread, heven.offset, h.delivers.shelf.counted, ofSsize_natCast (by omega),
      subSize_of_le (by omega) hlt]
    omega
  have hfollows : b.followLock s i = some (b.setPc s (.followRead i)) :=
    (if_pos h.unlocked).trans (if_neg hunread)
  have hon : (b.setPc s (.followRead i)).pcs s = .followRead i := setPc_self ..
  have h₁ := h.delivers.followLock h.follows hfollows
  have hrun₁ : Reaches Broker.step (Reading p s rs) b (b.setPc s (.followRead i)) :=
    subscriber_section (a := .none) h.running h.subscriber h.follows (by simp)
      (by simp) (by simp) (by simp)
      (fun _ j hread => Pc.noConfusion (h.follows.symm.trans hread)) hfollows
  have hnone : uncounted ((b.setPc s (.followRead i)).pcs p) = [] := by
    rw [setPc_of_ne _ _ h.delivers.apart, hwaits]
    rfl
  obtain ⟨rs', bytes, t, hrs, hbytes, hread, hshelf, -, -⟩ := h₁.reads messageLength heven
  obtain rfl : rs = rs' := (List.append_cancel_left hrs).symm
  rw [hnone, List.append_nil] at hbytes
  have hsome : 0 < bytes.length := by
    rw [hbytes, List.length_take]
    exact Nat.lt_min.mpr ⟨by decide, hpos⟩
  have hreads : (b.setPc s (.followRead i)).followRead s i
      = ({ b with tfs := t } : Broker).place s (b.clients s)
      (.followSendOp i (zeroPadded bytes messageLength) bytes.length) (b.sent s) := by
    have hzero : ¬ (bytes.length : Int) = 0 := by omega
    have hnn : ¬ (bytes.length : Int) < 0 := by omega
    rw [Broker.followRead, hread]
    dsimp only
    rw [if_neg hzero, if_neg hnn, Int.toNat_natCast, setPc_place]
    simp [place, setPc]
  have htakes : OneMessage rs → (b.setPc s (.followRead i)).TakesOne (s, .none) := by
    rintro ⟨m, hm⟩ j hj
    obtain rfl : i = j := by
      rw [hon] at hj
      cases hj
      rfl
    have hfile := h₁.shelf.file
    rw [hnone, List.append_nil, ← h₁.shelf.path] at hfile
    refine ⟨m, _, hfile, ?_⟩
    rw [show ((b.setPc s (.followRead i)).clients s).offset = _ from heven.offset,
      Int.toNat_natCast, encode_append,
      List.drop_left]
    exact hm
  have hrun₂ := subscriber_section (b := b.setPc s (.followRead i)) (p := p) (a := .none) h.running
    h.subscriber hon (by simp) (by simp) (by simp)
    (by simp) htakes (congrArg some hreads)
  have hrun₃ := @sends_frame { b with tfs := t } p s i fd bytes.length rs (b.clients s) (b.sent s)
    (zeroPadded bytes messageLength) h.running h.subscriber hreader.pipe
      hreader.opened (length_zeroPadded _ _)
  refine ⟨_, (hrun₁.trans hrun₂).trans hrun₃, hshelf.hasMessages, hshelf.counted, ?_, ?_⟩
  · rw [place_sent, hsent, hbytes]
  · rw [place_clients, heven.offset, hbytes, Int.natCast_add]

theorem oneMessage_singleton (hm : m.length < messageLength) : OneMessage [m] := by
  have hencode : encode [m] = m.bytes ++ [0] := by rw [encode_cons, encode_nil]
  refine ⟨m, hencode ▸ List.take_of_length_le ?_⟩
  rw [hencode, List.length_append, List.length_singleton]
  exact hm

theorem unread_of_reading (hps : p ≠ s) (hone : OneMessage rs)
    (h : Reaches Broker.step (Reading p s rs) b x) :
    Reaches Broker.step (Unread p s) b x :=
  h.mono fun _ _ hok => ⟨⟨hok.2.1, hok.2.2 hone⟩,
    fun _ hread => hps ((congrArg Prod.fst hread).symm.trans hok.1)⟩

/-- The subscriber of an empty box opens the file and finds nothing in it. -/
theorem Linked.waiting (h : Linked b p s i fd []) (hrobust : Robust b.tfs) (hp : p < b.maxSessions)
    (hpipe : b.isOpenFd (b.clients p).clientPipe = true) (hn : n < maxBoxes)
    (hentries : ∀ j < maxBoxes, b.tfs.freeOpenFileEntries j = .free ↔ n ≤ j)
    (hblock : b.tfs.freeBlock ≠ none) :
    ∃ x, Reaches Broker.step (Unread p s) b x ∧ Waiting x p s i fd (b.path i) [] [] (n + 1) := by
  obtain ⟨old, hwaits, -⟩ := h.publisher
  have hs := h.subscriber
  have hshelf := h.delivers.shelf
  have hfile := h.holds.file
  have hone := oneMessage_singleton (m := .empty) (by decide)
  have hsection : ∀ {y z : Broker} {pc : Pc}, y.stopped = false → s < y.maxSessions → y.pcs s = pc →
      (∀ j, pc ≠ .followRead j) → (∀ j message fh, pc ≠ .pubWrite j message fh) →
      (pc = .historyOpen → y.tfs.freeHandle ≠ none) → y.stepWorker s pc .none = some z →
      Reaches Broker.step (Unread p s) y z := by
    intro y z pc hstop hlt hpc hread hwrite hopens hz
    exact unread_of_reading h.apart hone
      (subscriber_section (a := .none) hstop hlt hpc hwrite (by simp) hopens (by simp)
      (fun _ j h => absurd (hpc.symm.trans h) (hread j)) hz)
  -- the lock is taken
  have hlocks : b.lockBox s i .historyOpen = _ := if_pos hs.unlocked
  have h₁ := h.delivers.historyLock hs.pc hlocks
  have hrun₁ := hsection hs.running hs.worker hs.pc (by simp) (by simp) (by simp) hlocks
  generalize hx₁ : (b.setBox i { b.boxes i with lock := some s }).setPc s .historyOpen
    = x₁ at h₁ hrun₁
  have hpc₁ : x₁.pcs s = .historyOpen := by rw [← hx₁]; exact setPc_self ..
  have hpcs₁ : x₁.pcs p = .pubOpcode old := by
    rw [← hx₁]; exact (setPc_of_ne _ _ h.apart).trans hwaits
  have htfs₁ : x₁.tfs = b.tfs := by rw [← hx₁]; rfl
  have hstop₁ : x₁.stopped = false := by rw [← hx₁]; exact hs.running
  have hmax₁ : x₁.maxSessions = b.maxSessions := by rw [← hx₁]; rfl
  have hbox₁ : (x₁.clients p).box = some i := by rw [← hx₁]; exact h.box
  have hpipe₁ : x₁.isOpenFd (x₁.clients p).clientPipe = true := by rw [← hx₁]; exact hpipe
  -- the file is opened
  have hfree : x₁.tfs.freeHandle ≠ none := by rw [htfs₁]; exact hs.handle
  have hopened := @tfsOpen_cursor _ _ h₁.shelf.wf h₁.shelf.valid _ h₁.shelf.file
    tfsOCreat _ (Or.inr ⟨rfl, rfl⟩)
  rcases hopened with ⟨-, hnone⟩ | ⟨t, k, -, hopen, hwft, hsame, -, -⟩
  · exact absurd hnone hfree
  have hrobust₁ : Robust x₁.tfs := htfs₁ ▸ hrobust
  have hrobustt : Robust t := (called_open hrobust₁ hopen).robust hrobust₁
  have hentriest := entries_opened h₁.shelf.wf h₁.shelf.params (htfs₁ ▸ hentries) hn hopen
  have h₂ := h₁.historyOpen hpc₁ hfree
  have hrun₂ := hsection hstop₁ (hmax₁ ▸ hs.worker) hpc₁ (by simp) (by simp) (fun _ => hfree) rfl
  rw [← h₁.reader.name] at hopen
  rw [historyOpen_of hopen (Int.natCast_nonneg k)] at h₂ hrun₂
  generalize hd : ({ x₁.clients s with boxFd := (k : Int) } : Client) = d at h₂ hrun₂
  -- nothing is behind the offset
  have hon : ((({ x₁ with tfs := t } : Broker).setClient s d).setPc s .historyTest).pcs s
    = .historyTest := setPc_self ..
  have hnothing :
    ¬ ((({ x₁ with tfs := t } : Broker).setClient s d).setPc s .historyTest).unread s i > 0 := by
    have heven := h₂.reader.place
    rw [hon] at heven
    rw [unread, heven.1.offset, h₂.shelf.counted]
    decide
  have hdone : ((({ x₁ with tfs := t } : Broker).setClient s d).setPc s .historyTest).historyTest s
      = (((({ x₁ with tfs := t } : Broker).setClient s d).setPc s .historyTest).unlockBox i).setPc s
        (.followLock i) := by
    simp only [Broker.historyTest, Broker.historyDone, h₂.reader.box, if_neg hnothing]
  have h₃ := h₂.historyTest hon
  rw [hdone] at h₃
  have hrun₃ := hsection
    (show ((({ x₁ with tfs := t } : Broker).setClient s d).setPc s .historyTest).stopped = false
    from hstop₁) (hmax₁ ▸ hs.worker) hon (by simp) (by simp) (by simp) (congrArg some hdone)
  refine ⟨_, (hrun₁.trans hrun₂).trans hrun₃, h₃, hrobustt, hstop₁, hmax₁ ▸ hp,
    hmax₁ ▸ hs.worker, ⟨old, ?_⟩,
    setPc_self .., congrArg Box.lock (setBox_self ..), ?_, ?_, hentriest, fun _ => ?_⟩
  · exact (setPc_of_ne _ _ h.apart).trans ((setPc_of_ne _ _ h.apart).trans hpcs₁)
  · exact (congrArg Client.box (setClient_of_ne _ _ h.apart)).trans hbox₁
  · rw [← hpipe₁, isOpenFd, isOpenFd]
    exact congrArg (fun c : Client => decide (0 ≤ c.clientPipe) && x₁.fds c.clientPipe.toNat)
      (setClient_of_ne _ _ h.apart)
  · rw [show ((((({ x₁ with tfs := t } : Broker).setClient s d).setPc s
      .historyTest).unlockBox i).setPc s
      (.followLock i)).tfs = t from rfl, hsame.freeBlock, htfs₁]
    exact hblock

/-- Worker 0 serves the publisher of the box `/a`, which is empty, and worker 1 a
subscriber that has just been registered. -/
def newcomers (t : Fs.State) : Broker :=
  { fresh 2 with
    numBoxes := 1
    freeBoxes := Function.update (fun _ => true) 0 false
    boxes := Function.update (fun _ => staticBox) 0 ⟨sampleName, 0, 1, 1, 1, none⟩
    clients := fun w => { zeroClient with
      opcode := if w = 0 then opCodeRegistPub else opCodeRegistSub
      boxName := sampleName
      box := some 0
      clientPipe := if w = 0 then 4 else 3 }
    fds := fun _ => true
    pcs := fun w => if w = 0 then .pubOpcode shortMessage else .historyLock 0
    tfs := t }

theorem newcomers_linked (m : Malloc) :
    Linked (newcomers (oneFile m sampleName.str.tail)) 0 1 0 3 [] := by
  have hpos : 0 < sampleName.str.tail.length := by decide
  have hlen : sampleName.str.tail.length ≤ 39 := by decide
  have hpath : (newcomers (oneFile m sampleName.str.tail)).path 0
    = sampleName.str := by simp [path, newcomers]
  refine ⟨⟨oneFile_wellFormed hpos hlen, (sameFiles_openHandle _ _ _).params, ?_,
    fun _ hm => absurd hm List.not_mem_nil, ?_, ?_⟩,
    ⟨rfl, show 1 < 2 by decide, rfl, rfl, ?_, rfl, rfl, rfl, ?_, ?_⟩, rfl, by decide,
    ⟨shortMessage, rfl, shortMessage_length⟩, rfl, show (4 : Int) ≠ 3 by decide⟩
  · rw [hpath]
    decide
  · rw [fileOf, hpath]
    exact (oneFile_file hpos hlen _).trans (if_pos rfl)
  · simp [newcomers]
  · exact hpath.symm
  · simp [newcomers]
  · rw [show (newcomers (oneFile m sampleName.str.tail)).tfs
      = oneFile m sampleName.str.tail from rfl, oneFile_freeHandle]
    exact Option.some_ne_none 1

/-- Both have come, and the subscriber has found the box empty. -/
theorem newcomers_waiting :
    ∃ b q, Reaches Broker.step (Unread 0 1) (newcomers (oneFile .zeros sampleName.str.tail)) b ∧
    Waiting b 0 1 0 3 q [] [] 2 := by
  have hpos : 0 < sampleName.str.tail.length := by decide
  have hlen : sampleName.str.tail.length ≤ 39 := by decide
  have hlinked := newcomers_linked .zeros
  have hentries : ∀ j < maxBoxes, (oneFile .zeros sampleName.str.tail).freeOpenFileEntries j
    = .free ↔ 1 ≤ j := by
    intro j hj
    rw [oneFile_entries]
    rcases eq_or_ne j 0 with rfl | hne
    · rw [Function.update_self]
      decide
    · rw [Function.update_of_ne hne]
      exact iff_of_true (tfsStart_handle hj) (Nat.one_le_iff_ne_zero.mpr hne)
  obtain ⟨b, hrun, hb⟩ := hlinked.waiting (oneFile_robust hpos hlen) (show 0 < 2 by decide)
    rfl (by decide) hentries (by
    rw [show (newcomers (oneFile .zeros sampleName.str.tail)).tfs
      = oneFile .zeros sampleName.str.tail from rfl,
      oneFile_freeBlock]
    exact Option.some_ne_none 1)
  exact ⟨b, _, hrun, hb⟩

/-- The publisher publishes `x`, and the subscriber reads it. -/
theorem delivered_in_order_short :
    ∃ b₀ b, Linked b₀ 0 1 0 3 [] ∧ Reaches Broker.step (Delivering 0 1) b₀ b ∧
    b.InOrder 1 0 3 ∧ b.delivered 1 3 = [letters 1] := by
  have hlinked := newcomers_linked .zeros
  obtain ⟨b₁, q, hrun₁, h₁⟩ := newcomers_waiting
  obtain ⟨b₂, hrun₂, h₂⟩ := @Waiting.publish _ _ _ _ _ _ _ _ _ (letters 1) h₁
    (by decide) (by decide) (by decide)
  obtain ⟨b, hrun₃, hmessages, hsize, -, hoffset⟩ := h₂.reads (List.cons_ne_nil _ _)
  have hdelivering : ∀ {x y : Broker}, Reaches Broker.step (Unread 0 1) x y →
    Reaches Broker.step (Delivering 0 1) x y :=
    fun hrun => hrun.mono fun _ _ hok => hok.1
  have hrun := ((hdelivering hrun₁).trans hrun₂).trans
    (hdelivering (unread_of_reading (by decide) (oneMessage_singleton (by decide)) hrun₃))
  have horder := (delivered_in_order _ b 0 1 0 3 [] hlinked hrun).1
  refine ⟨_, b, hlinked, hrun, horder, ?_⟩
  obtain ⟨ms, hms, -, hall⟩ := horder
  obtain rfl := hms.unique hmessages
  exact hall (by rw [hoffset, hsize]; decide)

/-- The publisher publishes `x` and `y` before the subscriber reads. The read takes both,
and the subscriber's program prints `x`. -/
theorem merged_read :
    ¬ ∀ (b₀ b : Broker) (p s i fd : Nat) (ms : List CStr), Linked b₀ p s i fd ms →
      Reaches Broker.step (Alongside p s) b₀ b → b.InOrder s i fd := by
  intro h
  have hlinked := newcomers_linked .zeros
  obtain ⟨b₁, q, hrun₁, h₁⟩ := newcomers_waiting
  obtain ⟨b₂, hrun₂, h₂⟩ := @Waiting.publish _ _ _ _ _ _ _ _ _ (letters 1) h₁
    (by decide) (by decide) (by decide)
  obtain ⟨b₃, hrun₃, h₃⟩ := @Waiting.publish _ _ _ _ _ _ _ _ _ (letters 2) h₂
    (by decide) (by decide) (by decide)
  have hboth : Waiting b₃ 0 1 0 3 q ([] ++ [letters 1, letters 2]) [] 4 := h₃
  obtain ⟨b, hrun₄, hmessages, hsize, hsent, hoffset⟩ := hboth.reads (List.cons_ne_nil _ _)
  have hrun := ((hrun₁.mono fun _ _ hok => hok.1.1).trans
    ((hrun₂.trans hrun₃).mono fun _ _ hok => hok.1)).trans
    (hrun₄.mono fun _ _ hok => hok.2.1)
  obtain ⟨ms, hms, -, hall⟩ := h _ b 0 1 0 3 [] hlinked hrun
  obtain rfl := hms.unique hmessages
  have htwo := congrArg List.length (hall (by rw [hoffset, hsize]; decide))
  have hone : (b.delivered 1 3).length = 1 := by
    have houtput : b.output 1 3 = opCodeSubscriber
        :: (zeroPadded ((encode [letters 1, letters 2]).take messageLength)
        messageLength ++ []) := by
      rw [output, hsent]
      simp
    rw [delivered, houtput, received_frame (length_zeroPadded _ _), received_nil]
    rfl
  rw [hone] at htwo
  cases htwo

end Broker

end MBroker
