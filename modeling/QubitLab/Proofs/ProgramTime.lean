import QubitLab.Proofs.ErrorDiscipline
import QubitLab.Proofs.HardwareOrder
import QubitLab.Qasm.Elapsed

/-!
# Program time in the timing grid

The points of a timing grid that lines made carry the names of their lines as labels. Latency compensation adds points
without a label between them, in grids of any order (`Marked.compensate`), so the labelled points keep the times of
their lines: each stands at the sum of the waits before it. Only the end point moves: it is a point of the hardware grid
too, and that grid is moved where something in it starts before time zero. `compileWith_programTime`: the end of the timing
grid, and the end time of a question about times, are late by this shift, so they are those of the program exactly if
nothing starts before time zero (`compileWith_movedEnd`).
-/

namespace QubitLab.Qasm

open List

variable {ε δ : Type}

/-! ## Labelled points -/

/-- The points that carry a label. -/
def labelled (g : Grid ε) : Grid ε := g.filter (·.label != "")

/-- The labelled points of a grid without their events, and a last point without a label. -/
def Marked (m : List (String × Int × Int)) (g : Grid ε) : Prop :=
  (places g).filter (·.1 != "") = m ∧ ∃ a t w, places g = a ++ [("", t, w)]

variable {m : List (String × Int × Int)} {g : Grid ε} {cfg : Config} {lines : List (List SourceOp)} {loop : Bool}
  {c : Compilation}

theorem Marked.of_places {g' : Grid δ} (h : Marked m g) (hp : places g' = places g) : Marked m g' := by
  rw [Marked, hp]
  exact h

theorem places_labelled (g : Grid ε) : places (labelled g) = (places g).filter (·.1 != "") := by
  simp only [places, labelled, filter_map]
  rfl

theorem Marked.addEvents (h : Marked m g) (t : Int) (es : List ε) : Marked m (addEvents g t es) := by
  rcases addEvents_cases g t es with ⟨a, p, b, rfl, -, hadd⟩ | ⟨a, b, rfl, hadd⟩
  · exact h.of_places (by rw [hadd]; simp [places])
  · have hab : places (a ++ b) = places a ++ places b := map_append
    have hnew : places (a ++ { time := t, events := es } :: b) = places a ++ ("", t, -1) :: places b := by simp [places]
    obtain ⟨hm, c, u, w, hc⟩ := h
    rw [hab] at hm hc
    rw [hadd, Marked, hnew]
    refine ⟨by rw [← hm]; simp, ?_⟩
    -- a point that is put behind all others is the last one
    rcases eq_nil_or_concat (places b) with hb | ⟨b', x, hb⟩
    · exact ⟨places a, t, -1, by rw [hb]⟩
    · rw [hb, concat_eq_append, ← append_assoc] at hc
      obtain ⟨-, hx⟩ := append_inj' hc rfl
      obtain rfl := singleton_inj.1 hx
      exact ⟨places a ++ ("", t, -1) :: b', u, w, by rw [hb]; simp⟩

theorem Marked.compensate {g : Grid Gate} (h : Marked m g) (least : Int) : Marked m (compensate least g) := by
  have hmove {t : Int} {gs : List Gate} {st : Grid Gate × Nat} (hs : Marked m st.1) :
      Marked m (gs.foldl (moveGate least t) st).1 := by
    induction gs generalizing st with
    | nil => exact hs
    | cons x gs ih => exact ih (hs.addEvents _ [x])
  have hpoint {st : Grid Gate × Nat} (hs : Marked m st.1) : Marked m (compensatePoint least st).1 := by
    rw [compensatePoint]
    split
    · exact hs
    · rename_i p hp
      refine hmove (hs.of_places ?_)
      obtain ⟨hi, rfl⟩ := List.getElem?_eq_some_iff.1 hp
      exact ext_getElem (by simp [places]) fun j h₁ h₂ => by
        simp only [places, getElem_map, getElem_set]
        split <;> simp_all
  have hrun (n : Nat) {st : Grid Gate × Nat} (hs : Marked m st.1) : Marked m (compensateFrom least n st) := by
    induction n generalizing st with
    | zero => exact hs
    | succ n ih => exact ih (hpoint hs)
  exact hrun g.length h

/-- Each entry stands where those before it have ended. -/
def Consecutive (t : Int) : List (String × Int × Int) → Prop
  | [] => True
  | x :: r => x.2.1 = t ∧ Consecutive (t + x.2.2) r

theorem Consecutive.time {t : Int} {a b : List (String × Int × Int)} {x : String × Int × Int}
    (h : Consecutive t (a ++ x :: b)) : x.2.1 = t + total (a.map (·.2.2)) := by
  induction a generalizing t with
  | nil => simpa [total] using h.1
  | cons y a ih =>
    rw [ih h.2, map_cons, total]
    omega

/-- The points of lines stand one after the other, and the end has no label. -/
theorem marked_withTimes {pts : List (TimePoint Gate)} (hl : ∀ p ∈ pts, p.label ≠ "") (t : Int) :
    ∃ m, Marked m (withTimes t pts) ∧ Consecutive t m ∧ m.map (·.2.2) = pts.map (·.wait) := by
  induction pts generalizing t with
  | nil => exact ⟨[], ⟨rfl, [], t, -1, rfl⟩, trivial, rfl⟩
  | cons p pts ih =>
    rw [forall_mem_cons] at hl
    obtain ⟨m, ⟨hm, a, u, w, ha⟩, hc, hw⟩ := ih hl.2 (t + p.wait)
    have hcons : places (withTimes t (p :: pts)) = (p.label, t, p.wait) :: places (withTimes (t + p.wait) pts) := rfl
    refine ⟨(p.label, t, p.wait) :: m, ⟨?_, (p.label, t, p.wait) :: a, u, w, by rw [hcons, ha]; rfl⟩, ⟨rfl, hc⟩, ?_⟩
    · rw [hcons, filter_cons_of_pos (by simpa using hl.1), hm]
    · rw [map_cons, map_cons, hw]

theorem total_nonneg {ds : List Int} (h : ∀ d ∈ ds, 0 ≤ d) : 0 ≤ total ds := by
  induction ds with
  | nil => exact Int.le_refl 0
  | cons d ds ih =>
    rw [forall_mem_cons] at h
    have := ih h.2
    rw [total]
    omega

/-! ## Labels of lines -/

/-- The name under which an operation stands in the program. -/
def TimedOp.name : TimedOp → String
  | .wait op => op.name
  | .gate g => g.name

theorem linePoint_label {ops : List TimedOp} {p : TimePoint Gate} (h : linePoint cfg ops = .ok p) :
    ∃ o ∈ ops, p.label = o.name := by
  cases ops with
  | nil => cases h
  | cons o ops =>
    refine ⟨o, mem_cons_self, ?_⟩
    cases o with
    | wait op =>
      obtain ⟨_, -, h⟩ := bind_eq_ok.1 h
      obtain ⟨_, -, h⟩ := bind_eq_ok.1 h
      cases h
      rfl
    | gate g =>
      obtain ⟨_, -, h⟩ := bind_eq_ok.1 h
      obtain ⟨_, -, h⟩ := bind_eq_ok.1 h
      cases h
      rfl

theorem resolveOp_name {names : QubitNames} {op : SourceOp} {os : List TimedOp} (h : resolveOp names op = .ok os) :
    ∀ o ∈ os, o.name = op.name := by
  rw [resolveOp] at h
  split at h
  · cases h
    simp [TimedOp.name]
  split at h
  · obtain ⟨qs, -, h⟩ := bind_eq_ok.1 h
    cases h
    simp [TimedOp.name]
  · cases h
    simp

theorem parseProgram_name {text : String}
    (h : parseProgram cfg text = .ok lines) : ∀ l ∈ lines, ∀ op ∈ l, op.name ≠ "" := by
  intro l hl op hop hn
  obtain ⟨line, -, hline⟩ := mapM_ok_of_mem h hl
  obtain ⟨part, -, hpart⟩ := mapM_ok_of_mem hline hop
  obtain ⟨params, -, -, hwords, -⟩ := parseOperation_inv hpart
  obtain ⟨w, hw, hname⟩ := mem_map.1 (hwords ▸ mem_cons_self : op.name ∈ _)
  rw [hn, String.ofList_eq_empty_iff] at hname
  simpa [hname] using (mem_filter.1 hw).2

theorem compileWith_parsed {s : Session} {text : String}
    (h : (s.compileWith cfg loop text).2 = .ok c) : parseProgram cfg text = .ok c.parsed := by
  rw [compileWith_eq] at h
  obtain ⟨ops, hops, h⟩ := bind_eq_ok.1 h
  obtain ⟨lines, -, h⟩ := bind_eq_ok.1 h
  rw [(compileNamed_stages h).2.1]
  exact hops

theorem places_mapEvents (f : ε → List δ) (g : Grid ε) : places (mapEvents f g) = places g := by
  simp [places, mapEvents]

/-- The labelled points of the compensated grid are those of the lines. -/
theorem Stages.marked (hst : Stages cfg loop lines c) (hd : ∀ l ∈ lines, ∀ op ∈ l, op.declares = false)
    (ha : ∀ l ∈ lines, ∀ op ∈ l, op.kind.isAlone = true → l = [op]) (hn : ∀ l ∈ lines, ∀ op ∈ l, op.name ≠ "") :
    ∃ m, Marked m c.compensated ∧ Consecutive 0 m ∧ m.map (·.2.2) = lines.map (lineLength cfg) := by
  obtain ⟨pts, hpts, hgrid⟩ := bind_eq_ok.1 hst.placed
  replace hgrid : withTimes 0 pts = c.timed := Except.ok.inj hgrid
  have hl : ∀ p ∈ pts, p.label ≠ "" := by
    intro p hp
    obtain ⟨ops, hops, hline⟩ := mapM_ok_of_mem hpts hp
    obtain ⟨l, hlines, hres⟩ := mapM_ok_of_mem hst.resolved hops
    obtain ⟨oss, hoss, hres⟩ := bind_eq_ok.1 hres
    replace hres : oss.flatten = ops := Except.ok.inj hres
    obtain ⟨o, ho, hlabel⟩ := linePoint_label hline
    rw [← hres] at ho
    obtain ⟨os, hos, ho⟩ := mem_flatten.1 ho
    obtain ⟨op, hop, hos⟩ := mapM_ok_of_mem hoss hos
    rw [hlabel, resolveOp_name hos o ho]
    exact hn l hlines op hop
  obtain ⟨m, hm, hc, hw⟩ := marked_withTimes hl 0
  have hlatent : places c.latent = places (withTimes 0 pts) := by
    rw [(withLatencies_spec hst.latent).1, places_mapEvents, hgrid]
    simp [places, splitGates]
  refine ⟨m, ?_, hc, hw.trans (waits_eq (timingGrid_points hd ha hst.resolved hpts))⟩
  rw [hst.compensated]
  exact (hm.of_places hlatent).compensate c.least

/-! ## The grid that is left -/

theorem Compilation.grid_concat {front : Grid Gate} {e : TimePoint Gate}
    (h : c.compensated = front ++ [e]) : c.grid = front ++ [{ e with time := e.time + shiftOf c.divided }] := by
  rw [Compilation.grid, h, mapIdx_append, mapIdx_singleton]
  congr 1
  · exact mapIdx_eq_iff.2 fun i => by
      by_cases hi : i < front.length
      · simp [hi]
        omega
      · simp [Nat.not_lt.1 hi]
  · simp

/-- Without a label for the end, the end time is that of the last point since the start. -/
theorem elapsed_end {a : Grid ε} {e p : TimePoint ε} (hg : g = a ++ [e]) {labels : List String} (hl : labels ≠ [])
    {start : Option String} (hp : g[(start.bind (labelIndex? g)).getD 0]? = some p) :
    ∃ times, elapsed g labels start none false = .ok (times, e.time - p.time) := by
  obtain ⟨ls, l, rfl⟩ := (eq_nil_or_concat labels).resolve_left hl
  have hlast : g[g.length - 1]? = some e := by simp [hg]
  have hne : g.isEmpty = false := by simp [hg]
  simp only [elapsed, hne, concat_eq_append, map_append, map_cons, List.map_nil, getLast?_concat,
    scaledTime, spanOf]
  simp [hp, hlast, pure, Except.pure]

/-- The hardware grid is not moved exactly if nothing in it starts before time zero. -/
theorem Stages.shiftOf_eq_zero_iff
    (hst : Stages cfg loop lines c) {conv : Grid HwEvent} {e : TimePoint HwEvent} (hconv : c.converted = conv ++ [e])
    (he : 0 ≤ e.time) : shiftOf c.divided = 0 ↔ ∀ p ∈ c.divided, 0 ≤ p.time := by
  obtain ⟨-, front₂, out, -, -, hout, hdiv⟩ := hst.fronts hconv
  obtain ⟨Q, hQ, -⟩ := divideRest_cuts countersOk_start Built.nil hout
  constructor
  · intro h0
    have hfront := shiftBy_nonneg (e := e) hQ.sorted
    rw [← hdiv, h0] at hfront
    rw [hdiv]
    refine forall_mem_append.2 ⟨fun p hp => ?_, by simpa using he⟩
    simpa using hfront _ (mem_map_of_mem hp)
  · intro h
    cases hg : c.divided with
    | nil => rfl
    | cons p r =>
      have := h p (by simp [hg])
      rw [shiftOf, if_neg (by omega)]

/-- The compensated grid ends where the program ends, if no line has a negative length. -/
theorem Stages.compensated_end (hst : Stages cfg loop lines c) (hd : ∀ l ∈ lines, ∀ op ∈ l, op.declares = false)
    (ha : ∀ l ∈ lines, ∀ op ∈ l, op.kind.isAlone = true → l = [op]) (hw : ∀ l ∈ lines, 0 ≤ lineLength cfg l)
    {front : Grid Gate} {e : TimePoint Gate} (hcomp : c.compensated = front ++ [e]) :
    e.time = programLength cfg lines ∧ (shiftOf c.divided = 0 ↔ ∀ p ∈ c.divided, 0 ≤ p.time) := by
  obtain ⟨conv, e', hconv, he', -⟩ := (hst.converted_plan hd ha hw).1.last
  have hends := congrArg places (hardwareGrid_spec hst.converted).1
  rw [places_mapEvents, ← hst.compensated, hcomp, hconv, places, places, map_append, map_append] at hends
  have htime : e'.time = e.time := by simpa using congrArg (·.2.1) (singleton_inj.1 (append_inj' hends rfl).2)
  refine ⟨htime ▸ he', hst.shiftOf_eq_zero_iff hconv ?_⟩
  rw [he', programLength]
  exact total_nonneg (forall_mem_map.2 hw)

/-- **Program time in the grid that is left.** Each labelled point stands where the lines before it have ended. The last
point has no label, and the end time of a question about times is its time since the start. Where no line has a negative
length, it stands where the program ends, late by what the hardware grid is moved, so it stands at the end of the program
exactly if nothing in the hardware grid starts before time zero. -/
theorem compileWith_programTime {s : Session} {cfg : Config} {loop : Bool} {text : String} {c : Compilation}
    (h : (s.compileWith cfg loop text).2 = .ok c) :
    (∀ a p b, c.grid = a ++ p :: b → p.label ≠ "" → p.time = total ((labelled a).map (·.wait))) ∧
    ∃ a e, c.grid = a ++ [e] ∧ e.label = "" ∧
      (∀ labels start p, labels ≠ [] → c.grid[(start.bind (labelIndex? c.grid)).getD 0]? = some p →
        ∃ times, elapsed c.grid labels start none false = .ok (times, e.time - p.time)) ∧
      ((∀ p ∈ labelled c.grid, 0 ≤ p.wait) →
        e.time = total ((labelled c.grid).map (·.wait)) + shiftOf c.divided ∧
        (e.time = total ((labelled c.grid).map (·.wait)) ↔ ∀ p ∈ c.divided, 0 ≤ p.time)) := by
  obtain ⟨hst, halone⟩ := compileWith_stages h
  have hd : ∀ l ∈ playedLines c.parsed, ∀ op ∈ l, op.declares = false := fun _ => playedLines_declares
  have hnames := parseProgram_name (compileWith_parsed h)
  obtain ⟨m, ⟨hm, pre, t, w, hlast⟩, hc, hw⟩ := hst.marked hd halone fun l hl => hnames l (mem_filter.1 hl).1
  obtain ⟨front, last, hcomp, -, hend⟩ := map_eq_append_iff.1 hlast
  obtain ⟨e, rfl, he⟩ := map_eq_singleton_iff.1 hend
  obtain ⟨hlabel, ht⟩ := Prod.mk.inj he
  have hgrid := Compilation.grid_concat hcomp
  have hplaces : places (labelled c.grid) = m := by
    rw [← hm, ← places_labelled, hcomp, hgrid]
    simp [labelled, hlabel]
  have hwaits : (labelled c.grid).map (·.wait) = (playedLines c.parsed).map (lineLength cfg) := by
    rw [← hw, ← hplaces]
    simp [places]
  refine ⟨fun a p b hp hpl => ?_, front, _, hgrid, hlabel, fun labels start p hl hp => elapsed_end hgrid hl hp,
    fun hpos => ?_⟩
  · have hsplit : labelled c.grid = labelled a ++ p :: labelled b := by
      rw [hp, labelled, filter_append, filter_cons_of_pos (by simpa using hpl)]
      rfl
    rw [← hplaces, hsplit, places, map_append, map_cons] at hc
    simpa [Function.comp_def] using hc.time
  · have hlen : ∀ l ∈ playedLines c.parsed, 0 ≤ lineLength cfg l := by
      intro l hl
      have := mem_map_of_mem (f := lineLength cfg) hl
      rw [← hwaits] at this
      obtain ⟨p, hp, hpw⟩ := mem_map.1 this
      rw [← hpw]
      exact hpos p hp
    obtain ⟨htime, hshift⟩ := hst.compensated_end hd halone hlen hcomp
    rw [programLength, ← hwaits] at htime
    rw [← hshift]
    dsimp only
    omega

theorem compileWith_programTime_waits :
    ∃ c, (Session.compileWith {} (twoChannels 3 4) true "x a | y b\nx b\ninit_all\ny a").2 = .ok c ∧
      places c.grid = [("", -3, -1), ("x", 0, 4), ("", 1, -1), ("x", 4, 4), ("init_all", 8, 100), ("y", 108, 4),
        ("", 115, -1)] ∧
      (∀ a p b, c.grid = a ++ p :: b → p.label ≠ "" → p.time = total ((labelled a).map (·.wait))) ∧
      ∃ a e, c.grid = a ++ [e] ∧ e.time = total ((labelled c.grid).map (·.wait)) + shiftOf c.divided ∧
        ∃ times, elapsed c.grid ["x"] (some "y") none false = .ok (times, e.time - 108) := by
  have hrun : (Session.compileWith {} (twoChannels 3 4) true "x a | y b\nx b\ninit_all\ny a").2.map (fun c =>
      (places c.grid, (labelled c.grid).map (·.wait), c.grid[(labelIndex? c.grid "y").getD 0]?.map (·.time))) =
      .ok ([("", -3, -1), ("x", 0, 4), ("", 1, -1), ("x", 4, 4), ("init_all", 8, 100), ("y", 108, 4), ("", 115, -1)],
        [4, 4, 100, 4], some 108) := by
    decide +kernel
  obtain ⟨c, hc, hshown⟩ := map_eq_ok.1 hrun
  obtain ⟨hplaces, hshown⟩ := Prod.mk.inj hshown
  obtain ⟨hwaits, hstart⟩ := Prod.mk.inj hshown
  obtain ⟨hlabels, a, e, hgrid, -, helapsed, hend⟩ := compileWith_programTime hc
  obtain ⟨p, hp, hpt⟩ := Option.map_eq_some_iff.1 hstart
  refine ⟨c, hc, hplaces, hlabels, a, e, hgrid, (hend ?_).1, hpt ▸ helapsed ["x"] (some "y") p (by simp) hp⟩
  intro q hq
  have := mem_map_of_mem (f := fun p : TimePoint Gate => p.wait) hq
  rw [hwaits] at this
  simp only [mem_cons, not_mem_nil, or_false] at this
  omega

/-- A pulse on the channel of greater latency starts before time zero. It lasts four clocks, and the grid and the end time
of a question about it have seven. Where a line has a negative length, a gate that is moved ahead comes to stand behind the
end of the program, at `-8` here. -/
theorem compileWith_movedEnd :
    (Session.compileWith {} (twoChannels 3 4) true "x b").2.map (fun c =>
      (places c.grid, elapsed c.grid ["x"] (some "x") none false)) =
      .ok ([("", -3, -1), ("x", 0, 4), ("", 7, -1)], .ok ([(0, "x")], 7)) ∧
    (Session.compileWith {} (twoChannels 3 (-20)) true "x b\ny a\nx a\nx a").2.map (fun c =>
      (places c.grid, shiftOf c.divided)) =
      .ok ([("x", 0, 4), ("y", 4, -20), ("x", -16, 4), ("x", -12, 4), ("", -8, -1), ("", -6, -1), ("", 13, -1)], 16) := by
  exact ⟨by decide +kernel, by decide +kernel⟩

end QubitLab.Qasm
