import Conglobate.Domain.Quiescence

/- That a domain can be stopped (`domain/helper.rs`).

   What is proved: where no call is refused and the domain, left alone, comes to an end
   before the deadline, `finish_until` succeeds, with the helper's status and the number of
   the other processes that were left: each of them is waited for once (`stops`).

   The supervisor does nothing to the processes until no one runs, so up to then the run
   is the others' (`left`); from then on it is the supervisor's, which takes them one by
   one. -/
namespace Conglobate.Domain

open Process Processes Effect

section Alone
variable (k : Kernel) (w : World)

/-- The world after so many calls. -/
def atCall (v : World) (n : Nat) : World := { v with processes := left k w n, calls := w.calls + n }

theorem atCall_advance (v : World) (n : Nat) :
    (atCall k w v n).advance k = atCall k w v (n + 1) := rfl

end Alone

/-- No call is refused, the domain comes to an end by a call, and all of it takes place in time. -/
structure Willing (k : Kernel) (w : World) (deadline n : Nat) : Prop where
  refuses : ∀ i, k.refuses i = none
  lease : ∀ i, k.lease i = .ok ()
  subreaper : ∀ i, k.subreaper i = true
  available : ∀ i, k.unavailable i = false
  ends : Quiet k.supervisor (left k w n)
  clock : ∀ i < w.calls + n + 2 * (left k w n).entries.length + 20, k.clock i < deadline
  rounds : n + (left k w n).entries.length < k.rounds
  counts : (left k w n).entries.length < 2 ^ 64

variable {k : Kernel} {w v : World} {deadline n : Nat}

theorem left_rooted (h : Rooted k.supervisor .domain w.processes) (j : Nat) :
    Rooted k.supervisor .domain (left k w j) := by
  induction j with
  | zero => exact h
  | succ j ih => exact ih.run _

theorem left_child {p : Nat} (h : IsChild k.supervisor w.processes p) (j : Nat) :
    IsChild k.supervisor (left k w j) p := by
  induction j with
  | zero => exact h
  | succ j ih => exact child_run ih _

/-- Once quiet, it stays as it is. -/
theorem left_of_quiet {j : Nat} (h : Quiet k.supervisor (left k w j)) (d : Nat) :
    left k w (j + d) = left k w j := by
  induction d with
  | zero => rfl
  | succ d ih =>
    calc left k w (j + (d + 1)) =
          Processes.run k.supervisor (left k w (j + d)) (k.others (w.calls + (j + d))) := rfl
      _ = Processes.run k.supervisor (left k w j) (k.others (w.calls + (j + d))) := by rw [ih]
      _ = left k w j := run_of_quiet h _

/-- So whenever it is quiet, it is as it is at the end. -/
theorem left_eq_of_quiet {i j : Nat} (hi : Quiet k.supervisor (left k w i))
    (hj : Quiet k.supervisor (left k w j)) :
    left k w i = left k w j := by
  obtain h | h := Nat.le_total i j
  · obtain ⟨d, rfl⟩ := Nat.exists_eq_add_of_le h
    exact (left_of_quiet hi d).symm
  · obtain ⟨d, rfl⟩ := Nat.exists_eq_add_of_le h
    exact left_of_quiet hj d

/-! Calls that are not refused. -/

theorem enter_ok (h : ∀ i, k.refuses i = none) (v : World) : enter k v = .ok () (v.advance k) := by
  rw [enter, h]

theorem remaining_ok {expired : String} (h : k.clock v.calls < deadline) :
    remaining k deadline expired v = .ok () (v.advance k) := by
  have hnow : now k v = .ok (k.clock v.calls) (v.advance k) := rfl
  rw [remaining, bind_of_ok hnow, if_pos h]
  rfl

theorem poll_ok (h : ∀ i, k.refuses i = none) (v : World) : poll k v = .ok () (v.advance k) := by
  rw [poll, h]

/-! The domain. -/

/-- The supervisor runs, outside of the domain. -/
def Outside (k : Kernel) (t : Table Cgroup ExitStatus) : Prop :=
  ∃ e, t.get? k.supervisor = some e ∧ e.ended = none ∧ e.group = .outside

theorem left_outside (h : Outside k w.processes) (j : Nat) : Outside k (left k w j) := by
  induction j with
  | zero => exact h
  | succ j ih => exact owner_run ih _

/-- The events tell whether someone of the domain runs. -/
theorem populated_iff (hrooted : Rooted k.supervisor .domain v.processes)
    (hout : Outside k v.processes) :
    populated v = false ↔ Quiet k.supervisor v.processes := by
  refine ⟨quiet_of_not_populated hrooted, fun hquiet => ?_⟩
  rw [populated, List.any_eq_false]
  rintro ⟨p, e⟩ hmem hpop
  have he := OrdMap.get?_eq_some.mpr hmem
  simp only [Bool.and_eq_true, decide_eq_true_eq, Option.isNone_iff_eq_none] at hpop
  by_cases hp : p = k.supervisor
  · obtain ⟨found, hfound, -, hgroup⟩ := hout
    rw [hp, hfound] at he
    cases he
    rw [hgroup] at hpop
    cases hpop.1
  · have hended := hquiet p e he hp
    rw [hpop.2] at hended
    cases hended

theorem eventsText_short (populated frozen : Bool) :
    ¬ 4096 < (eventsText populated frozen).length := by
  cases populated <;> cases frozen <;> decide

theorem readEvents_ok (h : ∀ i, k.refuses i = none) (v : World) :
    readEvents k v = .ok (eventsText (populated (v.advance k)) (k.frozen (v.calls + 1)))
      (v.advance k) := by
  rw [readEvents, bind_of_ok (enter_ok h v)]
  rfl

/-- **One look at an empty domain.** -/
theorem waitEmpty_quiet (h : ∀ i, k.refuses i = none) {rounds : Nat}
    (hempty : populated ((v.advance k).advance k) = false) :
    waitEmpty k deadline (rounds + 1) v = .ok () ((v.advance k).advance k) := by
  have hevents : domainEvents (eventsText (populated ((v.advance k).advance k))
      (k.frozen (v.calls + 2))) = .ok false := by
    rw [domainEvents_eventsText, hempty]
  rw [waitEmpty, bind_of_ok (enter_ok h v), bind_of_ok (readEvents_ok h _),
    if_neg (eventsText_short _ _)]
  exact bind_of_ok (lift_of_ok hevents)

/-- **A look at one that is not**, and a wait. -/
theorem waitEmpty_populated (h : ∀ i, k.refuses i = none)
    (havailable : ∀ i, k.unavailable i = false) {rounds : Nat}
    (hpopulated : populated ((v.advance k).advance k) = true)
    (hclock : k.clock (v.calls + 2) < deadline) :
    waitEmpty k deadline (rounds + 1) v = waitEmpty k deadline rounds
      ((((v.advance k).advance k).advance k).advance k) := by
  have hevents : domainEvents (eventsText (populated ((v.advance k).advance k))
      (k.frozen (v.calls + 2))) = .ok true := by
    rw [domainEvents_eventsText, hpopulated]
  rw [waitEmpty, bind_of_ok (enter_ok h v), bind_of_ok (readEvents_ok h _),
    if_neg (eventsText_short _ _)]
  refine (bind_of_ok (lift_of_ok hevents)).trans ?_
  rw [if_pos rfl, bind_of_ok (remaining_ok hclock), bind_of_ok (poll_ok h _), get_bind, havailable,
    if_neg Bool.false_ne_true]

/-- **The domain comes to an end**, and is seen to. -/
theorem waitEmpty_ok (hw : Willing k w deadline n)
    (hrooted : Rooted k.supervisor .domain w.processes) (hout : Outside k w.processes) :
    ∀ rounds j, n + 1 ≤ rounds + j → 1 ≤ rounds → j ≤ n + 4 →
      ∃ i, i ≤ n + 8 ∧ waitEmpty k deadline rounds (atCall k w v j) = .ok () (atCall k w v i) ∧
        left k w i = left k w n := by
  intro rounds
  induction rounds with
  | zero =>
    intro j _ hpos
    omega
  | succ rounds ih =>
    intro j hrounds _ hj
    have hpop := populated_iff (k := k) (v := atCall k w v (j + 2)) (left_rooted hrooted _)
      (left_outside hout _)
    by_cases hquiet : Quiet k.supervisor (left k w (j + 2))
    · refine ⟨j + 2, by omega, ?_, left_eq_of_quiet hquiet hw.ends⟩
      exact waitEmpty_quiet hw.refuses (hpop.mpr hquiet)
    · have hlt : j + 2 < n := by
        by_contra hge
        obtain ⟨d, hd⟩ := Nat.exists_eq_add_of_le (Nat.le_of_not_lt hge)
        rw [hd, left_of_quiet hw.ends] at hquiet
        exact hquiet hw.ends
      obtain ⟨i, hi, hrun, hleft⟩ := ih (j + 4) (by omega) (by omega) (by omega)
      refine ⟨i, hi, ?_, hleft⟩
      have hclock : k.clock ((atCall k w v j).calls + 2) < deadline := hw.clock _ (by
        show w.calls + j + 2 < _
        omega)
      have hpopulated : populated (atCall k w v (j + 2)) = true :=
        Bool.eq_true_of_not_eq_false fun hfalse => hquiet (hpop.mp hfalse)
      exact (waitEmpty_populated (v := atCall k w v j) hw.refuses hw.available hpopulated hclock).trans hrun

/-- **Cancelling** takes the directory, and leaves the processes as they are at the end. -/
theorem cancel_ok (hw : Willing k w deadline n) (hrooted : Rooted k.supervisor .domain w.processes)
    (hout : Outside k w.processes) :
    ∃ v i, i ≤ n + 9 ∧ cancel k deadline w = .ok () v ∧ v.processes = left k w n ∧
      v.calls = w.calls + i := by
  have hrounds := hw.rounds
  obtain ⟨i, hi, hwait, hleft⟩ :=
    waitEmpty_ok (v := { w with killed := true }) hw hrooted hout k.rounds 4
    (by omega) (by omega) (by omega)
  have hquiet : Quiet k.supervisor (left k w i) := hleft ▸ hw.ends
  have hnext : left k w (i + 1) = left k w n := (left_of_quiet hquiet 1).trans hleft
  have hends : Quiet k.supervisor (left k w (i + 1)) := hnext ▸ hw.ends
  refine ⟨{ atCall k w { w with killed := true } (i + 1) with directory := false },
    i + 1, by omega, ?_, hnext, rfl⟩
  rw [cancel, bind_of_ok (enter_ok hw.refuses w), get_bind, bind_of_ok (lift_of_ok (hw.lease _)),
    bind_of_ok (enter_ok hw.refuses _), bind_of_ok (enter_ok hw.refuses _), modify_bind,
      bind_of_ok (enter_ok hw.refuses _)]
  refine (bind_of_ok hwait).trans ?_
  rw [removeDirectory, bind_of_ok (enter_ok hw.refuses _), get_bind, atCall_advance, if_neg]
  · rfl
  · rw [(populated_iff (k := k) (v := atCall k w { w with killed := true } (i + 1))
      (left_rooted hrooted _)
      (left_outside hout _)).mpr hends]
    exact Bool.false_ne_true

/-! The helper and the others. -/

theorem advance_of_quiet (h : Quiet k.supervisor v.processes) :
    v.advance k = { v with calls := v.calls + 1 } := by
  rw [World.advance, run_of_quiet h]

/-- **The helper has ended**, so the first look takes it. -/
theorem waitUntil_ok (h : ∀ i, k.refuses i = none) {helper rounds : Nat}
    {e : Entry Cgroup ExitStatus} {status : ExitStatus} (hquiet : Quiet k.supervisor v.processes)
    (he : v.processes.get? helper = some e) (hparent : e.parent = k.supervisor)
    (hended : e.ended = some status) :
    waitUntil k helper deadline (rounds + 1) v =
      .ok status { v with processes := v.processes.erase helper, calls := v.calls + 1 } := by
  have hcollect : collect k { v with calls := v.calls + 1 } helper =
      .ok (some status, { v with processes := v.processes.erase helper, calls := v.calls + 1 }) := by
    unfold collect
    rw [he]
    simp [hparent, hended]
  have hwait : tryWait k helper v = .ok (some status)
      { v with processes := v.processes.erase helper, calls := v.calls + 1 } := by
    rw [tryWait, bind_of_ok (enter_ok h v), get_bind, advance_of_quiet hquiet,
      bind_of_ok (lift_of_ok hcollect)]
    rfl
  rw [waitUntil, bind_of_ok hwait]
  rfl

theorem pick_some {l : List Nat} (h : l ≠ []) : ∃ p, pick k v l = some p := by
  have hpos := List.length_pos_iff.mpr h
  have hlt : k.picks v.calls % l.length < l.length := Nat.mod_lt _ hpos
  exact ⟨l[k.picks v.calls % l.length], List.getElem?_eq_getElem hlt⟩

/-- Where no one runs, every child has ended. -/
theorem endedChildren_of_quiet (h : Quiet k.supervisor v.processes) :
    endedChildren k v = children k v := by
  rw [endedChildren, children]
  congr 1
  apply List.filter_congr
  rintro ⟨p, e⟩ hmem
  have he := OrdMap.get?_eq_some.mpr hmem
  by_cases hp : p = k.supervisor
  · simp [hp]
  · simp [hp, h p e he hp]

/-- Who is left is the supervisor alone, or has a child of it. -/
theorem children_ne_nil (hrooted : Rooted k.supervisor .domain v.processes)
    (hquiet : Quiet k.supervisor v.processes) (hmore : 1 < v.processes.entries.length) :
    children k v ≠ [] := by
  intro hnone
  have honly : ∀ p ∈ v.processes.keys, p ∈ [k.supervisor] := by
    intro p hp
    obtain ⟨e, he⟩ := Option.isSome_iff_exists.mp (OrdMap.mem_keys.mp hp)
    rw [List.mem_singleton]
    by_contra hne
    have hmem : p ∈ children k v := by
      refine List.mem_map.mpr ⟨(p, e), List.mem_filter.mpr ⟨OrdMap.get?_eq_some.mp he, ?_⟩, rfl⟩
      simp [hrooted.parent_of_quiet hquiet he hne, hne]
    rw [hnone] at hmem
    cases hmem
  have hle := (v.processes.nodup_keys.subperm honly).length_le
  rw [OrdMap.keys, List.length_map, List.length_singleton] at hle
  omega

theorem children_eq_nil (hrooted : Rooted k.supervisor .domain v.processes)
    (hone : v.processes.entries.length = 1) :
    children k v = [] := by
  obtain ⟨e, he, -⟩ := isRunning_iff.mp hrooted.running
  obtain ⟨entry, hentry⟩ := List.length_eq_one_iff.mp hone
  have hmem := OrdMap.get?_eq_some.mp he
  rw [hentry, List.mem_singleton] at hmem
  rw [children, hentry, ← hmem]
  simp

/-- **One of them**, taken. -/
theorem waitAny_ok (h : ∀ i, k.refuses i = none) (hrooted : Rooted k.supervisor .domain v.processes)
    (hquiet : Quiet k.supervisor v.processes) (hmore : 1 < v.processes.entries.length) :
    ∃ p e, v.processes.get? p = some e ∧ e.ended.isSome = true ∧
      waitAny k v = .ok (.reaped p) { v with processes := v.processes.erase p, calls := v.calls + 1 } := by
  have hnext := advance_of_quiet hquiet
  have hsome : children k { v with calls := v.calls + 1 } ≠ [] :=
    children_ne_nil hrooted hquiet hmore
  have hended : endedChildren k { v with calls := v.calls + 1 } =
      children k { v with calls := v.calls + 1 } :=
    endedChildren_of_quiet hquiet
  obtain ⟨p, hp⟩ := pick_some (k := k) (v := v) (hended ▸ hsome)
  obtain ⟨e, he, hstatus⟩ := mem_endedChildren (pick_mem hp)
  refine ⟨p, e, he, hstatus, ?_⟩
  unfold waitAny
  rw [h, hnext]
  simp only [hsome, if_false, hp]

/-- **Everyone left is taken**, one by one. -/
theorem drainLoop_ok (h : ∀ i, k.refuses i = none) :
    ∀ (others rounds collected : Nat) (v : World), Rooted k.supervisor .domain v.processes →
      Quiet k.supervisor v.processes → v.processes.entries.length = others + 1 → others < rounds →
      collected + others < 2 ^ 64 → (∀ i < v.calls + 2 * others, k.clock i < deadline) →
      ∃ v', drainLoop k deadline rounds collected v = .ok (collected + others) v' := by
  intro others
  induction others with
  | zero =>
    intro rounds collected v hrooted hquiet hlength hrounds _ _
    obtain ⟨rounds, rfl⟩ := Nat.exists_eq_add_of_lt hrounds
    have hnone : waitAny k v = .ok .noChildren (v.advance k) := by
      have hnext := advance_of_quiet hquiet
      have hchildren : children k (v.advance k) = [] := by
        rw [hnext]
        exact children_eq_nil hrooted hlength
      unfold waitAny
      rw [h]
      simp only [hchildren, if_true]
    exact ⟨v.advance k, by rw [drainLoop, bind_of_ok hnone]; rfl⟩
  | succ others ih =>
    intro rounds collected v hrooted hquiet hlength hrounds hcount hclock
    obtain ⟨rounds, rfl⟩ := Nat.exists_eq_add_of_lt (Nat.zero_lt_of_lt hrounds)
    obtain ⟨p, e, he, hended, hwait⟩ := waitAny_ok h hrooted hquiet (by omega)
    have herase := OrdMap.length_erase (OrdMap.mem_keys.mpr
      (by rw [he]; rfl) : p ∈ v.processes.keys)
    have hcounted : counted collected = .ok (collected + 1) := if_pos (by omega)
    -- what is left, after the reading of the clock
    obtain ⟨v', hrest⟩ := ih (0 + rounds) (collected + 1)
      { v with processes := v.processes.erase p, calls := v.calls + 2 }
      (hrooted.erase he hended) (hquiet.erase p)
      (by show (v.processes.erase p).entries.length = _; omega) (by omega) (by omega)
      (fun i hi => hclock i (by
        have hi : i < v.calls + 2 + 2 * others := hi
        omega))
    refine ⟨v', ?_⟩
    have htime : k.clock (v.calls + 1) < deadline := hclock _ (by omega)
    have hnow : now k { v with processes := v.processes.erase p, calls := v.calls + 1 } =
        .ok (k.clock (v.calls + 1)) { v with processes := v.processes.erase p, calls := v.calls + 2 } := by
      rw [now, advance_of_quiet (hquiet.erase p)]
    rw [drainLoop, bind_of_ok hwait]
    refine (bind_of_ok (lift_of_ok hcounted)).trans ?_
    rw [bind_of_ok hnow, if_neg (Nat.not_le.mpr htime), hrest]
    congr 1
    omega

/-- **A domain that comes to an end is stopped.** Where no call is refused and the processes, left alone, end
    before the deadline, stopping succeeds: with the status the helper has then, and with the number of all the
    other processes but the supervisor that are there, each of which is waited for once. -/
theorem stops (k : Kernel) (helper deadline n : Nat) (w : World) (hw : Willing k w deadline n)
    (hrooted : Rooted k.supervisor .domain w.processes) (hout : Outside k w.processes)
    (hchild : IsChild k.supervisor w.processes helper) (hne : helper ≠ k.supervisor) :
    ∃ e status others w', (left k w n).get? helper = some e ∧ e.ended = some status ∧
      others + 2 = (left k w n).entries.length ∧ finishUntil k helper deadline w =
        .ok (status, others) w' := by
  obtain ⟨v, i, hi, hcancel, hprocesses, hcalls⟩ := cancel_ok hw hrooted hout
  have hrooted : Rooted k.supervisor .domain v.processes := hprocesses ▸ left_rooted hrooted n
  have hquiet : Quiet k.supervisor v.processes := hprocesses ▸ hw.ends
  obtain ⟨e, he, hparent⟩ : IsChild k.supervisor v.processes helper :=
    hprocesses ▸ left_child hchild n
  have hended := hquiet helper e he hne
  obtain ⟨status, hstatus⟩ := Option.isSome_iff_exists.mp hended
  obtain ⟨rounds, hrounds⟩ :=
    Nat.exists_eq_succ_of_ne_zero (Nat.ne_of_gt (Nat.zero_lt_of_lt hw.rounds))
  have hwait : waitUntil k helper deadline (rounds + 1) v =
      .ok status { v with processes := v.processes.erase helper, calls := v.calls + 1 } :=
    waitUntil_ok hw.refuses hquiet he hparent hstatus
  have hlength := OrdMap.length_erase (OrdMap.mem_keys.mpr
    (by rw [he]; rfl) : helper ∈ v.processes.keys)
  -- the supervisor itself is still there
  have hsupervisor : 0 < (v.processes.erase helper).entries.length := by
    obtain ⟨found, hfound, -⟩ := isRunning_iff.mp (hrooted.erase he hended).running
    exact List.length_pos_of_mem (OrdMap.get?_eq_some.mp hfound)
  obtain ⟨others, hothers⟩ := Nat.exists_eq_add_of_lt hsupervisor
  have hsize : (left k w n).entries.length = others + 2 := by rw [← hprocesses]; omega
  have hbound := hw.rounds
  have hcounts := hw.counts
  obtain ⟨w', hdrain⟩ : ∃ w', drainLoop k deadline k.rounds 0
      { v with processes := v.processes.erase helper, calls := v.calls + 2 } =
          .ok (0 + others) w' :=
    drainLoop_ok hw.refuses others k.rounds 0 _ (hrooted.erase he hended) (hquiet.erase helper)
    (by show (v.processes.erase helper).entries.length = _; omega) (by omega) (by omega)
    (fun j hj => hw.clock j (by
      have hj : j < v.calls + 2 + 2 * others := hj
      omega))
  refine ⟨e, status, others, w', hprocesses ▸ he, hstatus, hsize.symm, ?_⟩
  rw [finishUntil, bind_of_ok hcancel, hrounds]
  refine (bind_of_ok hwait).trans ?_
  rw [drain]
  have hstart := advance_of_quiet
    (v := { v with processes := v.processes.erase helper, calls := v.calls + 1 }) (hquiet.erase helper)
  have henter : enter k { v with processes := v.processes.erase helper, calls := v.calls + 1 } =
      .ok () { v with processes := v.processes.erase helper, calls := v.calls + 2 } :=
        (enter_ok hw.refuses _).trans (by rw [hstart])
  have hall : (enter k >>= fun _ => get >>= fun w =>
      if k.subreaper w.calls then drainLoop k deadline k.rounds 0
      else throw ⟨.other, "supervisor subreaper identity or setting changed"⟩ : Run Nat)
      { v with processes := v.processes.erase helper, calls := v.calls + 1 } = .ok others w' := by
    rw [bind_of_ok henter, get_bind, if_pos (hw.subreaper _), hdrain, Nat.zero_add]
  exact bind_of_ok hall

theorem sample_stops : ∃ status w', finishUntil sample 2 100 sampleWorld = .ok (status, 2) w' := by
  have hall : ∀ e ∈ (left sample sampleWorld 9).entries, e.1 ≠ 1 → e.2.ended.isSome = true := by
    decide +kernel
  have hlength : (left sample sampleWorld 9).entries.length = 4 := by decide +kernel
  have hw : Willing sample sampleWorld 100 9 :=
    { refuses := fun _ => rfl
      lease := fun _ => rfl
      subreaper := fun _ => rfl
      available := fun _ => rfl
      ends := fun p e he hne => hall _ (OrdMap.get?_eq_some.mp he) hne
      clock := fun i hi => by
        rw [hlength] at hi
        exact Nat.lt_trans hi (by decide)
      rounds := by
        rw [hlength]
        decide
      counts := by
        rw [hlength]
        decide }
  obtain ⟨e, status, others, w', -, -, hothers, hrun⟩ :=
    stops sample 2 100 9 sampleWorld hw sample_rooted
    ⟨⟨0, .outside, none⟩, rfl, rfl, rfl⟩ sample_child (by decide)
  have htwo : others = 2 := by omega
  exact ⟨status, w', htwo ▸ hrun⟩

end Conglobate.Domain
