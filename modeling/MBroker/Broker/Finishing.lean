import MBroker.Broker.Bystanders

/-!
# Finishing all sessions of a box

`handle_tfs_remove_box` goes through the records of all workers and calls
`finish_client_session` for each one but its own that carries the name of the box. It
stops at the first call that fails: the pipe is closed already, or there is no file.

Results:
1. `finishSessions_iff`: when no call fails.
2. `FinishesAll.mem_calls_iff`, `FinishesAll.clients`, `FinishesAll.isOpenFd`: which
   sessions the loop then ends, the records that it resets and the pipes that it closes.
-/

namespace MBroker

namespace Broker

variable {b x : Broker} {v w i n self : Nat} {boxName : CStr}

/-! ## One session -/

/-- `finish_client_session` succeeds. -/
def CanFinish (b : Broker) (v : Nat) : Prop :=
  b.isOpenFd (b.clients v).clientPipe = true ∧
    ((b.clients v).opcode = opCodeListBoxes ∨ (b.clients v).boxFd ≠ -1)

theorem isOpenFd_close_self (b : Broker) (fd : Int) : (b.close fd).1.isOpenFd fd = false := by
  cases hopen : b.isOpenFd fd with
  | false => exact isOpenFd_close hopen
  | true =>
    rw [close, if_pos hopen, isOpenFd]
    simp

theorem isOpenFd_close_iff {fd fd' : Int} (h : b.isOpenFd fd = true) :
    (b.close fd).1.isOpenFd fd' = true ↔ b.isOpenFd fd' = true ∧ fd ≠ fd' := by
  constructor
  · intro hopen
    refine ⟨?_, ?_⟩
    · by_contra hc
      rw [isOpenFd_close (by simpa using hc)] at hopen
      cases hopen
    · rintro rfl
      rw [isOpenFd_close_self] at hopen
      cases hopen
  · rintro ⟨hopen, hne⟩
    simp only [isOpenFd, Bool.and_eq_true, decide_eq_true_eq] at h hopen ⊢
    have htoNat : fd'.toNat ≠ fd.toNat := by omega
    rw [close, if_pos (by simp [isOpenFd, h])]
    exact ⟨hopen.1, (Function.update_of_ne htoNat ..).trans hopen.2⟩

theorem finishClientSession_ne_iff : (b.finishClientSession w).2 ≠ -1 ↔ b.CanFinish w := by
  cases hopen : b.isOpenFd (b.clients w).clientPipe with
  | false =>
    rw [finishClientSession_of_closed hopen, CanFinish, hopen]
    simp
  | true =>
    by_cases hfd : (b.clients w).opcode = opCodeListBoxes ∨ (b.clients w).boxFd ≠ -1
    · rw [finishClientSession_of_boxFd hopen hfd]
      exact iff_of_true (show (0 : Int) ≠ -1 by decide) ⟨hopen, hfd⟩
    · have hno := not_or.mp hfd
      rw [finishClientSession_of_no_boxFd hopen hno.1 (not_not.mp hno.2)]
      exact iff_of_false (fun hc => hc rfl) fun hc => hfd hc.2

/-- Its record is reset. -/
theorem CanFinish.clients (h : b.CanFinish w) :
    (b.finishClientSession w).1.clients w = Client.finished (b.clients w) := by
  rw [finishClientSession_of_boxFd h.1 h.2, setClient_self]

/-- Its pipe is closed. -/
theorem CanFinish.isOpenFd (h : b.CanFinish w) (fd : Int) :
    (b.finishClientSession w).1.isOpenFd fd = true ↔
    b.isOpenFd fd = true ∧ (b.clients w).clientPipe ≠ fd := by
  rw [← isOpenFd_close_iff h.1, finishClientSession_of_boxFd h.1 h.2]
  exact iff_of_eq (congrArg (· = true) (isOpenFd_left w _))

/-- Another session can still be finished unless it had the same pipe. -/
theorem CanFinish.others (h : b.CanFinish w) (hv : v ≠ w) :
    (b.finishClientSession w).1.CanFinish v ↔
    b.CanFinish v ∧ (b.clients w).clientPipe ≠ (b.clients v).clientPipe := by
  rw [CanFinish, (finishClientSession_frame b w).clients v hv, h.isOpenFd, CanFinish]
  exact ⟨fun hc => ⟨⟨hc.1.1, hc.2⟩, hc.1.2⟩, fun hc => ⟨⟨hc.1.1, hc.2⟩, hc.1.2⟩⟩

/-! ## The loop over the records -/

/-- The workers for which `finishSessions` calls `finish_client_session`. -/
def finishCalls (b : Broker) (self : Nat) (boxName : CStr) : Nat → Nat → List Nat
  | _, 0 => []
  | i, n + 1 =>
    if (b.clients i).boxName.str = boxName ∧ i ≠ self then
      match b.finishClientSession i with
      | (b, ret) => if ret = -1 then [i] else i :: b.finishCalls self boxName (i + 1) n
    else b.finishCalls self boxName (i + 1) n

/-- A record from `i` on that carries the name. -/
def Carries (b : Broker) (self : Nat) (boxName : CStr) (i n v : Nat) : Prop :=
  i ≤ v ∧ v < i + n ∧ v ≠ self ∧ (b.clients v).boxName.str = boxName

/-- The first record carries the name. -/
theorem carries_first (h : (b.clients i).boxName.str = boxName ∧ i ≠ self)
    (hsame : ∀ u, u ≠ i → x.clients u = b.clients u) :
    b.Carries self boxName i (n + 1) v ↔ v = i ∨ x.Carries self boxName (i + 1) n v := by
  constructor
  · rintro ⟨hlo, hhi, hself, hname⟩
    rcases Nat.eq_or_lt_of_le hlo with rfl | hlt
    · exact Or.inl rfl
    · exact Or.inr ⟨hlt, by omega, hself, by rw [hsame v (Nat.ne_of_gt hlt)]; exact hname⟩
  · rintro (rfl | ⟨hlo, hhi, hself, hname⟩)
    · exact ⟨le_rfl, by omega, h.2, h.1⟩
    · rw [hsame v (Nat.ne_of_gt hlo)] at hname
      exact ⟨Nat.le_of_succ_le hlo, by omega, hself, hname⟩

/-- The first record does not. -/
theorem carries_rest (h : ¬ ((b.clients i).boxName.str = boxName ∧ i ≠ self)) :
    b.Carries self boxName i (n + 1) v ↔ b.Carries self boxName (i + 1) n v := by
  constructor
  · rintro ⟨hlo, hhi, hself, hname⟩
    refine ⟨Nat.lt_of_le_of_ne hlo ?_, by omega, hself, hname⟩
    rintro rfl
    exact h ⟨hname, hself⟩
  · rintro ⟨hlo, hhi, hself, hname⟩
    exact ⟨Nat.le_of_succ_le hlo, by omega, hself, hname⟩

/-- The loop from record `i` on when no call fails. -/
inductive FinishesAll (self : Nat) (boxName : CStr) : Nat → Nat → Broker → Broker → Prop
  | done {i : Nat} {b : Broker} : FinishesAll self boxName i 0 b b
  | finished {i n : Nat} {b x : Broker} :
      (b.clients i).boxName.str = boxName ∧ i ≠ self → b.CanFinish i →
      FinishesAll self boxName (i + 1) n (b.finishClientSession i).1 x →
      FinishesAll self boxName i (n + 1) b x
  | skipped {i n : Nat} {b x : Broker} : ¬ ((b.clients i).boxName.str = boxName ∧ i ≠ self) →
      FinishesAll self boxName (i + 1) n b x → FinishesAll self boxName i (n + 1) b x

theorem finishSessions_finishesAll (hret : (b.finishSessions self boxName i n).2 ≠ -1) :
    FinishesAll self boxName i n b (b.finishSessions self boxName i n).1 := by
  induction n generalizing b i with
  | zero => exact .done
  | succ n ih =>
    unfold finishSessions at hret ⊢
    split at hret
    · next hvictim =>
      rw [if_pos hvictim]
      dsimp only at hret ⊢
      split at hret
      · exact absurd rfl hret
      · next hok =>
        rw [if_neg hok]
        exact .finished hvictim (finishClientSession_ne_iff.mp hok) (ih hret)
    · next hno =>
      rw [if_neg hno]
      exact .skipped hno (ih hret)

/-- It calls `finish_client_session` for each record that carries the name. -/
theorem FinishesAll.mem_calls_iff (h : FinishesAll self boxName i n b x) :
    v ∈ b.finishCalls self boxName i n ↔ b.Carries self boxName i n v := by
  induction h with
  | done => exact iff_of_false List.not_mem_nil fun h => absurd h.2.1 (Nat.not_lt.mpr h.1)
  | finished hvictim hcan _ ih =>
    rw [finishCalls, if_pos hvictim]
    dsimp only
    rw [if_neg (finishClientSession_ne_iff.mpr hcan), List.mem_cons, ih,
      carries_first hvictim (finishClientSession_frame _ _).clients]
  | skipped hno _ ih => rw [finishCalls, if_neg hno, ih, carries_rest hno]

/-- It closes their pipes and no other descriptor. -/
theorem FinishesAll.isOpenFd (h : FinishesAll self boxName i n b x) (fd : Int) :
    x.isOpenFd fd = true ↔
    b.isOpenFd fd = true ∧ ∀ v, b.Carries self boxName i n v → (b.clients v).clientPipe ≠ fd := by
  induction h with
  | done => exact ⟨fun h => ⟨h, fun v hv => absurd hv.2.1 (Nat.not_lt.mpr hv.1)⟩, And.left⟩
  | @finished i n b x hvictim hcan _ ih =>
    have hclients := (finishClientSession_frame b i).clients
    rw [ih, hcan.isOpenFd]
    constructor
    · rintro ⟨⟨hopen, hne⟩, hrest⟩
      refine ⟨hopen, fun v hv => ?_⟩
      rcases (carries_first hvictim hclients).mp hv with rfl | hv
      · exact hne
      · have := hrest v hv
        rwa [hclients v (Nat.ne_of_gt hv.1)] at this
    · rintro ⟨hopen, hall⟩
      refine ⟨⟨hopen, hall i ((carries_first hvictim hclients).mpr (Or.inl rfl))⟩, fun v hv => ?_⟩
      rw [hclients v (Nat.ne_of_gt hv.1)]
      exact hall v ((carries_first hvictim hclients).mpr (Or.inr hv))
  | skipped hno _ ih =>
    rw [ih]
    simp only [carries_rest hno]

/-- It resets their records and no other. -/
theorem FinishesAll.clients (h : FinishesAll self boxName i n b x) (v : Nat) :
    (b.Carries self boxName i n v → x.clients v = Client.finished (b.clients v)) ∧
      (¬ b.Carries self boxName i n v → x.clients v = b.clients v) := by
  induction h with
  | done => exact ⟨fun hv => absurd hv.2.1 (Nat.not_lt.mpr hv.1), fun _ => rfl⟩
  | @finished i n b x hvictim hcan _ ih =>
    have hclients := (finishClientSession_frame b i).clients
    obtain ⟨hdone, hkeep⟩ := ih
    constructor
    · intro hv
      rcases (carries_first hvictim hclients).mp hv with rfl | hv
      · exact (hkeep fun h => absurd h.1 (Nat.not_succ_le_self v)).trans hcan.clients
      · rw [hdone hv, hclients v (Nat.ne_of_gt hv.1)]
    · intro hno
      have hne : v ≠ i := by
        rintro rfl
        exact hno ((carries_first hvictim hclients).mpr (Or.inl rfl))
      rw [hkeep fun h => hno ((carries_first hvictim hclients).mpr (Or.inr h)), hclients v hne]
  | skipped hno _ ih =>
    simp only [carries_rest hno]
    exact ih

/-- A session that it ends has neither a box nor a pipe. -/
theorem FinishesAll.frees (h : FinishesAll self boxName i n b x)
    (hv : b.Carries self boxName i n v) :
    (x.clients v).box = none ∧ x.isOpenFd (x.clients v).clientPipe = false := by
  rw [(h.clients v).1 hv]
  refine ⟨rfl, ?_⟩
  rw [Bool.eq_false_iff]
  exact fun hopen => ((h.isOpenFd _).mp hopen).2 v hv rfl

theorem finishCalls_nodup : (b.finishCalls self boxName i n).Nodup ∧
    ∀ v ∈ b.finishCalls self boxName i n, i ≤ v := by
  induction n generalizing b i with
  | zero => exact ⟨List.nodup_nil, fun v hv => nomatch hv⟩
  | succ n ih =>
    have hrest : ∀ y : Broker, ∀ v ∈ y.finishCalls self boxName (i + 1) n, i < v :=
      fun y v hv => ih.2 v hv
    unfold finishCalls
    split
    · dsimp only
      split
      · exact ⟨List.nodup_singleton i, fun v hv => (List.mem_singleton.mp hv).ge⟩
      · refine ⟨List.nodup_cons.mpr ⟨fun hi => Nat.lt_irrefl i (hrest _ i hi), ih.1⟩,
          fun v hv => ?_⟩
        rcases List.mem_cons.mp hv with rfl | hv
        · exact le_rfl
        · exact (hrest _ v hv).le
    · exact ⟨ih.1, fun v hv => (hrest _ v hv).le⟩

/-! ## When no call fails -/

/-- Each of the records from `i` on that carry the name can be finished, and no two of
them have the same pipe. -/
def AllFinish (b : Broker) (self : Nat) (boxName : CStr) (i n : Nat) : Prop :=
  ∀ v, i ≤ v → v < i + n → v ≠ self → (b.clients v).boxName.str = boxName → b.CanFinish v ∧
    ∀ u, i ≤ u → u < v → u ≠ self → (b.clients u).boxName.str = boxName →
      (b.clients u).clientPipe ≠ (b.clients v).clientPipe

theorem finishSessions_iff {self : Nat} {boxName : CStr} :
    (b.finishSessions self boxName i n).2 ≠ -1 ↔ b.AllFinish self boxName i n := by
  induction n generalizing b i with
  | zero => exact iff_of_true (show (0 : Int)
    ≠ -1 by decide) fun v hlo hhi => absurd hhi (Nat.not_lt.mpr hlo)
  | succ n ih =>
    unfold finishSessions
    split
    · next hvictim =>
      dsimp only
      -- Record `i` is a victim: those behind it can finish too unless they share its pipe.
      have hfirst := finishClientSession_ne_iff (b := b) (w := i)
      split
      · next hret =>
        refine iff_of_false (fun hc => hc rfl) fun hall => ?_
        exact hfirst.mpr (hall i le_rfl (by omega) hvictim.2 hvictim.1).1 hret
      · next hret =>
        have hcan := hfirst.mp hret
        have hclients := (finishClientSession_frame b i).clients
        rw [ih]
        constructor
        · intro hall v hlo hhi hself hname
          rcases Nat.eq_or_lt_of_le hlo with rfl | hlt
          · exact ⟨hcan, fun u hiu hui => absurd hui (Nat.not_lt.mpr hiu)⟩
          · have hne := Nat.ne_of_gt hlt
            obtain ⟨hv, hapart⟩ := hall v hlt (by omega) hself (by rw [hclients v hne]; exact hname)
            obtain ⟨hfinish, hpipe⟩ := (hcan.others hne).mp hv
            refine ⟨hfinish, fun u hiu huv huself huname => ?_⟩
            rcases Nat.eq_or_lt_of_le hiu with rfl | hiu
            · exact hpipe
            · have hu := hapart u hiu huv huself
                (by rw [hclients u (Nat.ne_of_gt hiu)]; exact huname)
              rwa [hclients u (Nat.ne_of_gt hiu), hclients v hne] at hu
        · intro hall v hlo hhi hself hname
          have hne : v ≠ i := Nat.ne_of_gt hlo
          rw [hclients v hne] at hname
          obtain ⟨hfinish, hapart⟩ := hall v (Nat.le_of_lt hlo) (by omega) hself hname
          refine ⟨(hcan.others hne).mpr
            ⟨hfinish, hapart i le_rfl hlo hvictim.2 hvictim.1⟩, fun u hiu huv huself huname => ?_⟩
          have hui : u ≠ i := Nat.ne_of_gt hiu
          rw [hclients u hui] at huname
          rw [hclients u hui, hclients v hne]
          exact hapart u (Nat.le_of_lt hiu) huv huself huname
    · next hno =>
      rw [ih]
      -- Record `i` is skipped, so every victim lies behind it.
      have hnot : ∀ u, i ≤ u → u ≠ self → (b.clients u).boxName.str = boxName → i + 1 ≤ u := by
        intro u hlo hself hname
        refine Nat.lt_of_le_of_ne hlo ?_
        rintro rfl
        exact hno ⟨hname, hself⟩
      constructor
      · intro hall v hlo hhi hself hname
        obtain ⟨hfinish, hapart⟩ := hall v (hnot v hlo hself hname) (by omega) hself hname
        exact ⟨hfinish, fun u hiu huv huself huname => hapart u
          (hnot u hiu huself huname) huv huself huname⟩
      · intro hall v hlo hhi hself hname
        obtain ⟨hfinish, hapart⟩ := hall v (Nat.le_of_succ_le hlo) (by omega) hself hname
        exact ⟨hfinish, fun u hiu huv huself huname => hapart u
          (Nat.le_of_succ_le hiu) huv huself huname⟩

end Broker

end MBroker
