import Mathlib.Data.List.Induction
import ZeroMQ.Locator.Server

/-!
# Which connections a pass of `zmq_server` closes

After `select` has returned the server walks its list of connections
(`zmq_server/zmq_server.cpp`).  A connection that misbehaves, with an error or
without a complete command to read, is to be closed and all others are to stay.
Two things go wrong.  The loop erases from the list it walks and steps on, so
that the connection behind a closed one is not looked at.  And an idle
connection is kept or closed by the value left in `rc`, which is the positive
result of `select` until a command has been processed and `-1` after one that
could not be read.

The file follows the loop by position, with the set of descriptors given to
`select`, and states exactly when a pass closes the connections it should.

## Main definitions

* `ZmqServer.Pass` — the variables of the loop; `ZmqServer.pass` runs it.
* `ZmqServer.Report` — what there is to be found about a connection.
* `ZmqServer.Undisturbed` — the orders of reports the loop copes with.

## Main results

* `pass_traverse` — the loop by position and the one over the rest of the list.
* `drops_misbehaving_iff` — a pass closes exactly the connections that
  misbehave if and only if the reports are undisturbed.
-/

namespace ZeroMQ

namespace ZmqServer

/-! ## The loop by position -/

/-- The variables of the loop; `closed` is the history of the connections that
have been deleted. -/
structure Pass where
  socketList : List (Nat × TcpSocket)
  pos : Nat
  rc : Int
  objects : ObjectTable
  sourceSet : List Nat
  closed : List Nat

/-- `source_set_fds`, built anew. -/
def sourceSetOf (listening : Nat) (socketList : List (Nat × TcpSocket)) :
    List Nat :=
  listening :: socketList.map Prod.fst

/-- The body of the loop, and `pos ++`. -/
def Pass.body (listening : Nat) (r : SelectResult) (p : Pass) : Pass :=
  match p.socketList[p.pos]? with
  | none => p
  | some c =>
      match visit r p.rc p.objects c with
      | (some s, rc, objects, _) =>
          { p with
            socketList := p.socketList.set p.pos (c.1, s)
            pos := p.pos + 1
            rc := rc
            objects := objects }
      | (none, rc, objects, _) =>
          { socketList := p.socketList.eraseIdx p.pos
            pos := p.pos + 1
            rc := rc
            objects := objects
            sourceSet := sourceSetOf listening (p.socketList.eraseIdx p.pos)
            closed := p.closed ++ [c.1] }

theorem Pass.body_progress (listening : Nat) (r : SelectResult) {p : Pass}
    (h : p.pos < p.socketList.length) :
    (p.body listening r).socketList.length - (p.body listening r).pos <
      p.socketList.length - p.pos := by
  unfold Pass.body
  rw [List.getElem?_eq_getElem h]
  dsimp only
  split
  · show (p.socketList.set _ _).length - (p.pos + 1) < _
    rw [List.length_set]
    omega
  · show (p.socketList.eraseIdx p.pos).length - (p.pos + 1) < _
    rw [List.length_eraseIdx_of_lt h]
    omega

/-- The loop. -/
def Pass.loop (listening : Nat) (r : SelectResult) (p : Pass) : Pass :=
  if p.pos < p.socketList.length then (p.body listening r).loop listening r
  else p
termination_by p.socketList.length - p.pos
decreasing_by exact Pass.body_progress listening r ‹_›

/-- A pass over the connections, after `select` has found `r`. -/
def pass (listening : Nat) (r : SelectResult) (objects : ObjectTable)
    (socketList : List (Nat × TcpSocket)) : Pass :=
  Pass.loop listening r
    { socketList := socketList, pos := 0, rc := r.rc, objects := objects
      sourceSet := sourceSetOf listening socketList, closed := [] }

/-! ## The loop, connection by connection -/

/-- The loop when the connections up to `pos` have been dealt with: those kept
and those closed, and whether the next one is going to be passed over. -/
structure Tally where
  rc : Int
  objects : ObjectTable
  skip : Bool
  kept : List (Nat × TcpSocket)
  closed : List Nat

/-- One connection further. -/
def Tally.next (r : SelectResult) (t : Tally) (c : Nat × TcpSocket) : Tally :=
  if t.skip then { t with skip := false, kept := t.kept ++ [c] }
  else
    match visit r t.rc t.objects c with
    | (some s, rc, objects, _) =>
        { t with rc := rc, objects := objects, kept := t.kept ++ [(c.1, s)] }
    | (none, rc, objects, _) =>
        { t with rc := rc, objects := objects, skip := true,
                 closed := t.closed ++ [c.1] }

/-- The loop has the tally, and the connections `rest` in front of it. -/
structure Pass.Matches (listening : Nat) (p : Pass) (t : Tally)
    (rest : List (Nat × TcpSocket)) : Prop where
  socketList : p.socketList = t.kept ++ rest
  pos : p.pos = t.kept.length + t.skip.toNat
  rc : p.rc = t.rc
  objects : p.objects = t.objects
  sourceSet : p.sourceSet = sourceSetOf listening p.socketList
  closed : p.closed = t.closed

namespace Pass.Matches

variable {listening : Nat} {r : SelectResult} {p : Pass} {t : Tally}
  {c : Nat × TcpSocket} {rest : List (Nat × TcpSocket)}

/-- A connection is passed over without the loop doing anything. -/
theorem skipped (h : p.Matches listening t (c :: rest)) (hskip : t.skip = true) :
    p.Matches listening (t.next r c) rest := by
  simp only [Tally.next, hskip, if_true]
  refine ⟨?_, ?_, h.rc, h.objects, h.sourceSet, h.closed⟩
  · rw [h.socketList, List.append_assoc, List.singleton_append]
  · rw [h.pos, hskip, List.length_append]
    rfl

/-- The loop's body deals with the connection at `pos`. -/
theorem visited (h : p.Matches listening t (c :: rest))
    (hskip : t.skip = false) :
    p.pos < p.socketList.length ∧
      (p.body listening r).Matches listening (t.next r c) rest := by
  have hpos : p.pos = t.kept.length := by rw [h.pos, hskip]; rfl
  have hat : p.socketList[p.pos]? = some c := by
    rw [h.socketList, hpos, List.getElem?_append_right (Nat.le_refl _),
      Nat.sub_self]
    rfl
  refine ⟨(List.getElem?_eq_some_iff.mp hat).1, ?_⟩
  unfold Pass.body Tally.next
  rw [hat, h.rc, h.objects, hskip]
  dsimp only
  rcases visit r t.rc t.objects c with ⟨s | s, rc, objects, services⟩
  · have herase : p.socketList.eraseIdx p.pos = t.kept ++ rest := by
      rw [h.socketList, hpos, List.eraseIdx_append_of_length_le (Nat.le_refl _),
        Nat.sub_self, List.eraseIdx_cons_zero]
    refine ⟨herase, ?_, rfl, rfl, rfl, ?_⟩
    · show p.pos + 1 = t.kept.length + 1
      rw [hpos]
    · show p.closed ++ [c.1] = t.closed ++ [c.1]
      rw [h.closed]
  · have hset : p.socketList.set p.pos (c.1, s) =
        (t.kept ++ [(c.1, s)]) ++ rest := by
      rw [h.socketList, hpos, List.set_append_right _ _ (Nat.le_refl _),
        Nat.sub_self, List.set_cons_zero, List.append_assoc,
        List.singleton_append]
    refine ⟨hset, ?_, rfl, rfl, ?_, h.closed⟩
    · show p.pos + 1 = (t.kept ++ [(c.1, s)]).length + 0
      rw [hpos, List.length_append]
      rfl
    · show p.sourceSet = sourceSetOf listening (p.socketList.set p.pos (c.1, s))
      rw [h.sourceSet, hset, h.socketList]
      simp [sourceSetOf]

/-- The whole loop. -/
theorem loop (h : p.Matches listening t rest) :
    (p.loop listening r).Matches listening (rest.foldl (Tally.next r) t) [] := by
  induction rest generalizing p t with
  | nil =>
      have hend : ¬p.pos < p.socketList.length := by
        rw [h.socketList, List.append_nil, h.pos]
        omega
      rw [Pass.loop, if_neg hend]
      exact h
  | cons c rest ih =>
      rw [List.foldl_cons]
      cases hskip : t.skip with
      | true => exact ih (h.skipped hskip)
      | false =>
          obtain ⟨hpos, hbody⟩ := h.visited (r := r) hskip
          rw [Pass.loop, if_pos hpos]
          exact ih hbody

end Pass.Matches

/-- The tally of a pass that starts with the value of `select`. -/
def tally (r : SelectResult) (objects : ObjectTable)
    (socketList : List (Nat × TcpSocket)) : Tally :=
  socketList.foldl (Tally.next r)
    { rc := r.rc, objects := objects, skip := false, kept := [], closed := [] }

theorem pass_matches (listening : Nat) (r : SelectResult)
    (objects : ObjectTable) (socketList : List (Nat × TcpSocket)) :
    (pass listening r objects socketList).Matches listening
      (tally r objects socketList) [] :=
  Pass.Matches.loop ⟨rfl, rfl, rfl, rfl, rfl, rfl⟩

theorem tally_traverse (r : SelectResult) (rc : Int) (objects : ObjectTable)
    (list kept : List (Nat × TcpSocket)) (closed : List Nat) :
    let t := list.foldl (Tally.next r) ⟨rc, objects, false, kept, closed⟩
    t.objects = (traverse r rc objects list).1 ∧
      t.kept = kept ++ (traverse r rc objects list).2.1 := by
  fun_induction traverse r rc objects list generalizing kept closed with
  | case1 rc objects => exact ⟨rfl, (List.append_nil _).symm⟩
  | case2 rc objects c s rc' objects' services rest hvisit objects'' list more
      htrav ih =>
      rw [htrav] at ih
      simp only [List.foldl_cons, Tally.next, hvisit]
      obtain ⟨hobjects, hkept⟩ := ih (kept ++ [(c.1, s)]) closed
      refine ⟨hobjects, hkept.trans ?_⟩
      rw [List.append_assoc, List.singleton_append]
  | case3 rc objects c rc' objects' services hvisit =>
      simp [Tally.next, hvisit]
  | case4 rc objects c rc' objects' services d rest hvisit objects'' list more
      htrav ih =>
      rw [htrav] at ih
      simp only [List.foldl_cons, Tally.next, hvisit]
      obtain ⟨hobjects, hkept⟩ := ih (kept ++ [d]) (closed ++ [c.1])
      refine ⟨hobjects, hkept.trans ?_⟩
      rw [List.append_assoc, List.singleton_append]

/-- The loop by position does what the server's step says. -/
theorem pass_traverse (listening : Nat) (r : SelectResult)
    (objects : ObjectTable) (socketList : List (Nat × TcpSocket)) :
    (pass listening r objects socketList).objects =
        (traverse r r.rc objects socketList).1 ∧
      (pass listening r objects socketList).socketList =
        (traverse r r.rc objects socketList).2.1 := by
  have hmatches := pass_matches listening r objects socketList
  obtain ⟨hobjects, hkept⟩ := tally_traverse r r.rc objects socketList [] []
  refine ⟨hmatches.objects.trans hobjects, ?_⟩
  rw [hmatches.socketList, List.append_nil]
  exact hkept

/-! ## What there is to be found -/

/-- What there is to be found about a connection.  It has an error; it can be
read, but there is no command ID or an unknown one, or a command that is not
complete and valid; it can be read and delivers a complete valid command, with
the value of the handler; it is idle. -/
inductive Report where
  | error
  | unknown
  | broken
  | command (rc : Int)
  | idle
  deriving DecidableEq, Repr

/-- The connections that are to be closed. -/
def Report.misbehaves : Report → Bool
  | .error | .unknown | .broken => true
  | .command _ | .idle => false

/-- The report on a connection that can be read. -/
def commandReport (objects : ObjectTable) (s : TcpSocket) : Report :=
  match s.readByte with
  | none => .unknown
  | some (cmd, s) =>
      if cmd = createId then
        if s.readCreate.isSome then .command (registerObject objects s).1
        else .broken
      else if cmd = getId then
        if (s.readFramed true).isSome then .command (queryObject objects s).1
        else .broken
      else .unknown

/-- The report on a connection, if it is processed with this table. -/
def report (r : SelectResult) (objects : ObjectTable) (c : Nat × TcpSocket) :
    Report :=
  if c.1 ∈ r.errorSet then .error
  else if c.1 ∈ r.resultSet then commandReport objects c.2
  else .idle

/-- The table after a connection has been processed. -/
def tableAfter (r : SelectResult) (objects : ObjectTable)
    (c : Nat × TcpSocket) : ObjectTable :=
  if c.1 ∈ r.errorSet then objects
  else if c.1 ∈ r.resultSet then (processCommand objects c.2).2.1
  else objects

/-- The reports on the connections in front, and the table.  `behind` says that
the last one misbehaves: the next one is left for the next pass. -/
structure Survey where
  objects : ObjectTable
  behind : Bool
  found : List (Nat × Report)

/-- The survey with one more connection. -/
def Survey.next (r : SelectResult) (v : Survey) (c : Nat × TcpSocket) :
    Survey :=
  { objects := if v.behind then v.objects else tableAfter r v.objects c
    behind := (report r v.objects c).misbehaves
    found := v.found ++ [(c.1, report r v.objects c)] }

theorem Survey.next_reports (r : SelectResult) (v : Survey)
    (c : Nat × TcpSocket) :
    (v.next r c).found.map Prod.snd =
      v.found.map Prod.snd ++ [report r v.objects c] := by
  rw [Survey.next, List.map_append]
  rfl

/-- The reports on all connections. -/
def survey (r : SelectResult) (objects : ObjectTable)
    (socketList : List (Nat × TcpSocket)) : Survey :=
  socketList.foldl (Survey.next r)
    { objects := objects, behind := false, found := [] }

/-! ## What the loop makes of a report -/

/-- The value that the processing of a connection assigns to `rc`. -/
def Report.result : Report → Option Int
  | .broken => some (-1)
  | .command rc => some rc
  | .error | .unknown | .idle => none

/-- Whether the loop closes the connection. -/
def Report.closes (rc : Int) : Report → Bool
  | .idle => rc ≠ 0
  | k => k.result ≠ some 0

theorem registerObject_of_broken {s : TcpSocket} (objects : ObjectTable)
    (h : s.readCreate = none) :
    registerObject objects s = (-1, objects, s) := by
  rw [registerObject, h]

theorem queryObject_of_broken {s : TcpSocket} (objects : ObjectTable)
    (h : s.readFramed true = none) : queryObject objects s = (-1, s) := by
  rw [queryObject, h]

/-- The report on a command says what its processing assigns. -/
theorem processCommand_report (objects : ObjectTable) (s : TcpSocket) :
    (processCommand objects s).1 = (commandReport objects s).result := by
  unfold processCommand commandReport
  cases s.readByte with
  | none => rfl
  | some read =>
      obtain ⟨cmd, s⟩ := read
      dsimp only
      by_cases hcreate : cmd = createId
      · rw [if_pos hcreate, if_pos hcreate]
        cases hread : s.readCreate with
        | none => rw [registerObject_of_broken objects hread]; rfl
        | some _ => rfl
      · rw [if_neg hcreate, if_neg hcreate]
        by_cases hget : cmd = getId
        · rw [if_pos hget, if_pos hget]
          cases hread : s.readFramed true with
          | none => rw [queryObject_of_broken objects hread]; rfl
          | some _ => rfl
        · rw [if_neg hget, if_neg hget]
          rfl

theorem commandReport_ne_idle (objects : ObjectTable) (s : TcpSocket) :
    commandReport objects s ≠ .idle := by
  unfold commandReport
  grind

theorem Report.closes_of_ne_idle {k : Report} (rc : Int) (h : k ≠ .idle) :
    k.closes rc = decide (k.result ≠ some 0) := by
  cases k with
  | idle => exact absurd rfl h
  | _ => rfl

theorem visit_report (r : SelectResult) (rc : Int) (objects : ObjectTable)
    (c : Nat × TcpSocket) :
    (visit r rc objects c).1.isNone = (report r objects c).closes rc ∧
      (visit r rc objects c).2.1 = (report r objects c).result.getD rc ∧
      (visit r rc objects c).2.2.1 = tableAfter r objects c := by
  unfold visit report tableAfter
  by_cases herror : c.1 ∈ r.errorSet
  · simp only [herror, if_true]
    exact ⟨rfl, rfl, trivial⟩
  · by_cases hready : c.1 ∈ r.resultSet
    · simp only [herror, hready, if_true, if_false]
      rw [processCommand_report,
        Report.closes_of_ne_idle rc (commandReport_ne_idle objects c.2)]
      refine ⟨?_, rfl, trivial⟩
      by_cases hresult : (commandReport objects c.2).result = some 0
      · simp [hresult]
      · simp [hresult]
    · simp only [herror, hready, if_false]
      refine ⟨?_, rfl, trivial⟩
      by_cases hrc : rc = 0
      · simp [hrc, Report.closes]
      · simp [hrc, Report.closes]

/-! ## The orders of reports the loop copes with -/

/-- No misbehaving connection is directly in front. -/
def Clear (before : List Report) : Prop :=
  ∀ k, before.getLast? = some k → k.misbehaves = false

/-- The last command that the loop has read, behind the connections `before`,
was served. -/
def Served (before : List Report) : Prop :=
  ∃ l₁ l₂, before = l₁ ++ .command 0 :: l₂ ∧ Clear l₁ ∧ .broken ∉ l₂

/-- The loop deals as it should with a connection behind the connections
`before`. -/
structure Fair (before : List Report) (k : Report) : Prop where
  misbehaving : k.misbehaves = true → Clear before
  answered : ∀ rc, k = .command rc → Clear before → rc = 0
  idle : k = .idle → Clear before → Served before

/-- A misbehaving connection is not directly behind another one; a complete
command that is read is also answered; and an idle connection that is not
directly behind a misbehaving one has the last command read in front of it
served. -/
def Undisturbed (l : List Report) : Prop :=
  ∀ before k after, l = before ++ k :: after → Fair before k

theorem clear_nil : Clear [] :=
  fun _ h => by cases h

theorem clear_snoc (l : List Report) (k : Report) :
    Clear (l ++ [k]) ↔ k.misbehaves = false := by
  unfold Clear
  rw [List.getLast?_concat]
  simp

theorem not_served_nil : ¬Served [] := by
  rintro ⟨l₁, l₂, h, -⟩
  exact absurd h.symm (List.append_ne_nil_of_right_ne_nil _ (by simp))

theorem served_snoc (l : List Report) (k : Report) :
    Served (l ++ [k]) ↔
      (k = .command 0 ∧ Clear l) ∨ (Served l ∧ k ≠ .broken) := by
  constructor
  · rintro ⟨l₁, l₂, heq, hclear, hbroken⟩
    rcases List.eq_nil_or_concat l₂ with rfl | ⟨l₃, k', rfl⟩
    · obtain ⟨rfl, hk⟩ := List.append_inj' heq rfl
      exact .inl ⟨(List.cons.inj hk).1, hclear⟩
    · rw [List.concat_eq_append, ← List.cons_append, ← List.append_assoc] at heq
      obtain ⟨rfl, hk⟩ := List.append_inj' heq rfl
      obtain rfl := (List.cons.inj hk).1
      rw [List.concat_eq_append, List.mem_append, not_or] at hbroken
      refine .inr ⟨⟨l₁, l₃, rfl, hclear, hbroken.1⟩, ?_⟩
      rintro rfl
      exact hbroken.2 (List.mem_singleton_self _)
  · rintro (⟨rfl, hclear⟩ | ⟨⟨l₁, l₂, rfl, hclear, hbroken⟩, hk⟩)
    · exact ⟨l, [], rfl, hclear, List.not_mem_nil⟩
    · refine ⟨l₁, l₂ ++ [k], by simp, hclear, ?_⟩
      rw [List.mem_append, List.mem_singleton]
      rintro (hmem | rfl)
      · exact hbroken hmem
      · exact hk rfl

theorem undisturbed_nil : Undisturbed [] := by
  intro before k after h
  exact absurd h.symm (List.append_ne_nil_of_right_ne_nil _ (by simp))

theorem undisturbed_snoc (l : List Report) (k : Report) :
    Undisturbed (l ++ [k]) ↔ Undisturbed l ∧ Fair l k := by
  constructor
  · intro h
    refine ⟨fun before k' after heq => ?_, h l k [] rfl⟩
    exact h before k' (after ++ [k]) (by rw [heq]; simp)
  · rintro ⟨h, hfair⟩ before k' after heq
    rcases List.eq_nil_or_concat after with rfl | ⟨after, k'', rfl⟩
    · obtain ⟨rfl, hk⟩ := List.append_inj' heq rfl
      obtain rfl := (List.cons.inj hk).1
      exact hfair
    · rw [List.concat_eq_append, ← List.cons_append, ← List.append_assoc] at heq
      obtain ⟨rfl, -⟩ := List.append_inj' heq rfl
      exact h before k' after rfl

/-! ## The loop against the survey -/

/-- Whether a connection with this report stays. -/
def Tally.stays (t : Tally) (k : Report) : Bool :=
  t.skip || !k.closes t.rc

/-- What a connection does to the tally, by the report on it. -/
theorem Tally.next_spec (r : SelectResult) (t : Tally) (c : Nat × TcpSocket) :
    let k := report r t.objects c
    (t.next r c).skip = (!t.skip && k.closes t.rc) ∧
      (t.next r c).rc = (if t.skip then t.rc else k.result.getD t.rc) ∧
      (t.next r c).objects =
        (if t.skip then t.objects else tableAfter r t.objects c) ∧
      (t.next r c).kept.map Prod.fst =
        t.kept.map Prod.fst ++ (if t.stays k then [c.1] else []) ∧
      (t.next r c).closed = t.closed ++ (if !t.stays k then [c.1] else []) := by
  obtain ⟨hcloses, hrc, hobjects⟩ := visit_report r t.rc t.objects c
  cases hskip : t.skip with
  | true => simp [next, stays, hskip]
  | false =>
      simp only [next, stays, hskip]
      rcases hvisit : visit r t.rc t.objects c with
        ⟨s | s, rc, objects, services⟩
      · rw [hvisit] at hcloses hrc hobjects
        simp [← hcloses, ← hrc, ← hobjects]
      · rw [hvisit] at hcloses hrc hobjects
        simp [← hcloses, ← hrc, ← hobjects]

/-- The connections kept and closed are those they should be. -/
structure Right (t : Tally) (found : List (Nat × Report)) : Prop where
  kept : t.kept.map Prod.fst =
    (found.filter (fun c => !c.2.misbehaves)).map Prod.fst
  closed : t.closed = (found.filter (fun c => c.2.misbehaves)).map Prod.fst

/-- The variables of the loop after a survey that it has coped with. -/
structure Agrees (t : Tally) (v : Survey) : Prop where
  skip : t.skip = v.behind
  objects : t.objects = v.objects
  rc : t.rc = 0 ↔ Served (v.found.map Prod.snd)

section

variable {r : SelectResult} {t : Tally} {v : Survey} {c : Nat × TcpSocket}

theorem append_cond_inj {l l' : List Nat} {n : Nat} {p q : Bool} (h : n ∉ l)
    (h' : n ∉ l') :
    (l ++ (if p then [n] else []) = l' ++ (if q then [n] else [])) ↔
      l = l' ∧ p = q := by
  cases p with
  | false =>
      cases q with
      | false => simp
      | true =>
          refine ⟨fun heq => absurd ?_ h, fun heq => by cases heq.2⟩
          rw [← List.append_nil l]
          exact heq ▸ List.mem_append_right _ (List.mem_singleton_self n)
  | true =>
      cases q with
      | false =>
          refine ⟨fun heq => absurd ?_ h', fun heq => by cases heq.2⟩
          rw [← List.append_nil l']
          exact heq ▸ List.mem_append_right _ (List.mem_singleton_self n)
      | true => simp

/-- A connection further, the tally is right if it was, and the connection
stays if it does not misbehave. -/
theorem right_next_iff (hkept : c.1 ∉ t.kept.map Prod.fst)
    (hclosed : c.1 ∉ t.closed) (hfound : c.1 ∉ v.found.map Prod.fst) :
    Right (t.next r c) (v.next r c).found ↔
      Right t v.found ∧
        t.stays (report r t.objects c) =
          !(report r v.objects c).misbehaves := by
  have hnot : ∀ p : Nat × Report → Bool,
      c.1 ∉ (v.found.filter p).map Prod.fst := by
    intro p hmem
    exact hfound (List.map_subset _ List.filter_sublist.subset hmem)
  have hfilter : ∀ p : Nat × Report → Bool,
      ((v.next r c).found.filter p).map Prod.fst =
        (v.found.filter p).map Prod.fst ++
          (if p (c.1, report r v.objects c) then [c.1] else []) := by
    intro p
    simp only [Survey.next, List.filter_append, List.map_append]
    cases hp : p (c.1, report r v.objects c) with
    | true => simp [hp]
    | false => simp [hp]
  obtain ⟨-, -, -, hk, hc⟩ := t.next_spec r c
  constructor
  · rintro ⟨hkept', hclosed'⟩
    rw [hk, hfilter, append_cond_inj hkept (hnot _)] at hkept'
    rw [hc, hfilter, append_cond_inj hclosed (hnot _)] at hclosed'
    exact ⟨⟨hkept'.1, hclosed'.1⟩, hkept'.2⟩
  · rintro ⟨⟨hkept', hclosed'⟩, hstays⟩
    refine ⟨?_, ?_⟩
    · rw [hk, hfilter, append_cond_inj hkept (hnot _)]
      exact ⟨hkept', hstays⟩
    · rw [hc, hfilter, append_cond_inj hclosed (hnot _)]
      exact ⟨hclosed', by rw [hstays, Bool.not_not]⟩

theorem Tally.stays_of_misbehaves {k : Report} (t : Tally)
    (h : k.misbehaves = true) : t.stays k = t.skip := by
  cases k with
  | error | unknown | broken => simp [stays, Report.closes, Report.result]
  | command _ | idle => cases h

theorem Tally.stays_command (t : Tally) (rc : Int) :
    t.stays (.command rc) = (t.skip || decide (rc = 0)) := by
  simp [stays, Report.closes, Report.result]

theorem Tally.stays_idle (t : Tally) :
    t.stays .idle = (t.skip || decide (t.rc = 0)) := by
  simp [stays, Report.closes]

/-- The loop is right about a connection in the orders it copes with. -/
theorem Agrees.fair_iff (h : Agrees t v)
    (hclear : v.behind = false ↔ Clear (v.found.map Prod.snd)) (k : Report) :
    (t.stays k = !k.misbehaves) ↔ Fair (v.found.map Prod.snd) k := by
  rw [← h.skip] at hclear
  cases hk : k.misbehaves with
  | true =>
      rw [t.stays_of_misbehaves hk]
      refine ⟨fun hskip => ?_, fun hfair => hclear.mpr (hfair.misbehaving hk)⟩
      refine ⟨fun _ => hclear.mp hskip, fun rc hrc => ?_, fun hidle => ?_⟩
      · rw [hrc] at hk; cases hk
      · rw [hidle] at hk; cases hk
  | false =>
      have hskip : t.skip = true ↔ ¬Clear (v.found.map Prod.snd) := by
        rw [← hclear, Bool.not_eq_false]
      cases k with
      | error | unknown | broken => cases hk
      | command rc =>
          rw [t.stays_command, Bool.not_false, Bool.or_eq_true, hskip,
            decide_eq_true_iff]
          constructor
          · intro hor
            refine ⟨fun hm => ?_, fun rc' hrc hc => ?_, fun hidle => ?_⟩
            · cases hm
            · cases hrc
              exact hor.resolve_left (not_not_intro hc)
            · cases hidle
          · intro hfair
            by_cases hc : Clear (v.found.map Prod.snd)
            · exact .inr (hfair.answered rc rfl hc)
            · exact .inl hc
      | idle =>
          rw [t.stays_idle, Bool.not_false, Bool.or_eq_true, hskip,
            decide_eq_true_iff, h.rc]
          constructor
          · intro hor
            refine ⟨fun hm => ?_, fun rc hrc => ?_, fun _ hc => ?_⟩
            · cases hm
            · cases hrc
            · exact hor.resolve_left (not_not_intro hc)
          · intro hfair
            by_cases hc : Clear (v.found.map Prod.snd)
            · exact .inr (hfair.idle rfl hc)
            · exact .inl hc

/-- The loop's variables go on to agree with the survey. -/
theorem Agrees.next (h : Agrees t v)
    (hclear : v.behind = false ↔ Clear (v.found.map Prod.snd))
    (hfair : Fair (v.found.map Prod.snd) (report r v.objects c)) :
    Agrees (t.next r c) (v.next r c) := by
  have hstays := (h.fair_iff hclear (report r v.objects c)).mpr hfair
  obtain ⟨hskip, hrc, hobjects, -, -⟩ := t.next_spec r c
  rw [h.objects] at hskip hrc hobjects
  cases hbehind : v.behind with
  | true =>
      -- Passed over: it does not misbehave, and nothing is assigned.
      rw [h.skip, hbehind] at hskip hrc hobjects
      have hnot : ¬Clear (v.found.map Prod.snd) := by
        rw [← hclear, hbehind]; decide
      have hgood : (report r v.objects c).misbehaves = false :=
        Bool.eq_false_iff.mpr fun hm => hnot (hfair.misbehaving hm)
      refine ⟨hskip.trans hgood.symm, ?_, ?_⟩
      · rw [hobjects]
        simp [Survey.next, hbehind]
      · rw [hrc, if_pos rfl, h.rc, v.next_reports, served_snoc]
        constructor
        · intro hserved
          refine .inr ⟨hserved, fun hk => ?_⟩
          rw [hk] at hgood
          cases hgood
        · rintro (⟨-, hc⟩ | ⟨hserved, -⟩)
          · exact absurd hc hnot
          · exact hserved
  | false =>
      have hc : Clear (v.found.map Prod.snd) := hclear.mp hbehind
      rw [Tally.stays, h.skip, hbehind, Bool.false_or, Bool.not_inj_iff] at hstays
      rw [h.skip, hbehind] at hskip hrc hobjects
      refine ⟨hskip.trans hstays, ?_, ?_⟩
      · rw [hobjects]
        simp [Survey.next, hbehind]
      · rw [hrc, if_neg Bool.false_ne_true, v.next_reports, served_snoc]
        cases hk : report r v.objects c with
        | error | unknown | idle => simp [Report.result, h.rc]
        | broken => simp [Report.result]
        | command rc =>
            obtain rfl : rc = 0 := hfair.answered rc hk hc
            simp [Report.result, hc]

end

section

variable (r : SelectResult) (objects : ObjectTable)
  (l : List (Nat × TcpSocket)) (c : Nat × TcpSocket)

theorem tally_snoc :
    tally r objects (l ++ [c]) = (tally r objects l).next r c := by
  rw [tally, List.foldl_append]
  rfl

theorem survey_snoc :
    survey r objects (l ++ [c]) = (survey r objects l).next r c := by
  rw [survey, List.foldl_append]
  rfl

theorem survey_numbers :
    (survey r objects l).found.map Prod.fst = l.map Prod.fst := by
  induction l using List.reverseRecOn with
  | nil => rfl
  | append_singleton l c ih =>
      rw [survey_snoc, List.map_append, ← ih]
      simp [Survey.next]

theorem survey_behind_iff :
    (survey r objects l).behind = false ↔
      Clear ((survey r objects l).found.map Prod.snd) := by
  induction l using List.reverseRecOn with
  | nil => exact ⟨fun _ => clear_nil, fun _ => rfl⟩
  | append_singleton l c ih =>
      rw [survey_snoc, Survey.next_reports, clear_snoc]
      rfl

/-- Only connections of the list are kept or closed. -/
theorem tally_mem (n : Nat) :
    (n ∈ (tally r objects l).kept.map Prod.fst → n ∈ l.map Prod.fst) ∧
      (n ∈ (tally r objects l).closed → n ∈ l.map Prod.fst) := by
  induction l using List.reverseRecOn with
  | nil => exact ⟨fun h => h, fun h => h⟩
  | append_singleton l c ih =>
      obtain ⟨-, -, -, hkept, hclosed⟩ := (tally r objects l).next_spec r c
      rw [tally_snoc, hkept, hclosed]
      simp only [List.map_append, List.mem_append]
      refine ⟨Or.imp ih.1 fun h => ?_, Or.imp ih.2 fun h => ?_⟩
      · split at h
        · exact h
        · cases h
      · split at h
        · exact h
        · cases h

theorem tally_right_iff (hrc : r.rc ≠ 0) (hnodup : (l.map Prod.fst).Nodup) :
    (Right (tally r objects l) (survey r objects l).found ↔
        Undisturbed ((survey r objects l).found.map Prod.snd)) ∧
      (Undisturbed ((survey r objects l).found.map Prod.snd) →
        Agrees (tally r objects l) (survey r objects l)) := by
  -- From the back: whether the last connection is dealt with as it should be
  -- depends on those in front of it, and the loop has coped with them.
  induction l using List.reverseRecOn with
  | nil =>
      refine ⟨⟨fun _ => undisturbed_nil, fun _ => ⟨rfl, rfl⟩⟩, fun _ => ?_⟩
      exact ⟨rfl, rfl, fun h => absurd h hrc,
        fun h => absurd h not_served_nil⟩
  | append_singleton l c ih =>
      rw [List.map_append] at hnodup
      obtain ⟨hl, -, hdisjoint⟩ := List.nodup_append.mp hnodup
      have hc : c.1 ∉ l.map Prod.fst := fun hmem =>
        hdisjoint c.1 hmem c.1 (List.mem_singleton_self _) rfl
      obtain ⟨hright, hagrees⟩ := ih hl
      have hclear := survey_behind_iff r objects l
      rw [tally_snoc, survey_snoc, Survey.next_reports, undisturbed_snoc]
      refine ⟨?_, fun h => (hagrees h.1).next hclear h.2⟩
      have hmem := tally_mem r objects l c.1
      rw [right_next_iff (mt hmem.1 hc) (mt hmem.2 hc)
        (by rw [survey_numbers]; exact hc), hright]
      refine and_congr_right fun hu => ?_
      rw [(hagrees hu).objects]
      exact (hagrees hu).fair_iff hclear _

end

/-! ## The connections that are closed -/

/-- A pass has closed exactly the connections that misbehave: the others are in
the list, in order, and in `source_set_fds`. -/
structure Exact (listening : Nat) (found : List (Nat × Report)) (p : Pass) :
    Prop where
  stays : p.socketList.map Prod.fst =
    (found.filter (fun c => !c.2.misbehaves)).map Prod.fst
  closed : p.closed = (found.filter (fun c => c.2.misbehaves)).map Prod.fst
  watched : ∀ fd, fd ∈ p.sourceSet ↔
    fd = listening ∨ fd ∈ p.socketList.map Prod.fst

end ZmqServer

/-- `zmq_server` drops exactly the connections that misbehave if and only if
what there is to be found about its connections is undisturbed. -/
theorem drops_misbehaving_iff (listening : Nat) (r : SelectResult)
    (objects : ObjectTable) (socketList : List (Nat × TcpSocket))
    (hrc : r.rc ≠ 0) (hnodup : (socketList.map Prod.fst).Nodup) :
    ZmqServer.Exact listening (ZmqServer.survey r objects socketList).found
        (ZmqServer.pass listening r objects socketList) ↔
      ZmqServer.Undisturbed
        ((ZmqServer.survey r objects socketList).found.map Prod.snd) := by
  have hmatches := ZmqServer.pass_matches listening r objects socketList
  have hlist : (ZmqServer.pass listening r objects socketList).socketList =
      (ZmqServer.tally r objects socketList).kept := by
    rw [hmatches.socketList, List.append_nil]
  rw [← (ZmqServer.tally_right_iff r objects socketList hrc hnodup).1]
  constructor
  · intro h
    exact ⟨hlist ▸ h.stays, hmatches.closed ▸ h.closed⟩
  · intro h
    refine ⟨hlist ▸ h.kept, hmatches.closed ▸ h.closed, fun fd => ?_⟩
    rw [hmatches.sourceSet]
    exact List.mem_cons

/-- A client registers `a`, the next one has an error and is closed, and two
idle ones stay. -/
theorem drops_misbehaving_iff_registered :
    ∃ r socketList,
      (ZmqServer.pass 9 r ∅ socketList).closed = [1] ∧
        (ZmqServer.pass 9 r ∅ socketList).sourceSet = [9, 0, 2, 3] ∧
        ZmqServer.Undisturbed
          ((ZmqServer.survey r ∅ socketList).found.map Prod.snd) := by
  refine ⟨⟨[0], [1]⟩, [(0, ⟨createCommand [97] [], [], []⟩),
    (1, ⟨[], [], []⟩), (2, ⟨[], [], []⟩), (3, ⟨[], [], []⟩)],
    by decide +kernel, by decide +kernel, ?_⟩
  refine (drops_misbehaving_iff 9 ⟨[0], [1]⟩ ∅ _ (by decide) (by decide)).mp
    ⟨by decide +kernel, by decide +kernel, fun fd => ?_⟩
  rw [(ZmqServer.pass_matches 9 _ _ _).sourceSet]
  exact List.mem_cons

/-- Of two clients the second one asks for an object; the first one, which has
nothing to say and no error, is closed. -/
theorem idle_connection_dropped :
    (ZmqServer.survey ⟨[1], []⟩ ∅ [(0, ⟨[], [], []⟩),
        (1, ⟨[getId, 1, 97], [], []⟩)]).found = [(0, .idle), (1, .command 0)] ∧
      (ZmqServer.pass 9 ⟨[1], []⟩ ∅ [(0, ⟨[], [], []⟩),
        (1, ⟨[getId, 1, 97], [], []⟩)]).closed = [0] ∧
      (ZmqServer.pass 9 ⟨[1], []⟩ ∅ [(0, ⟨[], [], []⟩),
        (1, ⟨[getId, 1, 97], [], []⟩)]).sourceSet = [9, 1] := by
  decide +kernel

end ZeroMQ
