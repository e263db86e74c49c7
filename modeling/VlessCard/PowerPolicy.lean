/-
`PowerPolicy.kt`: whether the phone is fit for work in the background.

Every evaluation is given what the last one remembered: that the battery was low, that the
phone was hot, and since when it has been cooling down. Times are milliseconds since the
phone was switched on; the two that are subtracted are never negative. Temperatures are
doubles.
-/
import Mathlib.Algebra.Order.Group.Int
import Mathlib.Tactic.Common
import VlessCard.Text

set_option autoImplicit false

namespace VlessCard

namespace PowerPolicy

structure Input where
  now : ℤ
  battery : ℤ := -1
  charging : Bool := false
  saver : Bool := false
  screen : Bool := true
  temp : Float := 0.0
  thermal : ℤ := -1
  metered : Bool := false
  dataSaver : Bool := false
  activeTraffic : Bool := false
  lowMemory : Bool := false
  gaming : Bool := false
  recentLag : Bool := false

structure Options where
  profile : String := "balanced"
  threshold : ℤ := 20
  quietScreen : Bool := true
  chargeOnly : Bool := false
  wifiOnly : Bool := true
  protectTraffic : Bool := true
  autoCool : Bool := true

structure Memory where
  low : Bool := false
  hot : Bool := false
  coolSince : ℤ := -1
  deriving DecidableEq

structure Plan where
  memory : Memory := {}
  allowed : Bool := true
  reason : String := "Готов к фоновым улучшениям"
  tcpParallel : ℤ := 96
  realParallel : ℤ := 12
  loopMs : ℤ := 3000
  healthyMs : ℤ := 20000
  allowLight : Bool := true
  deferTraffic : Bool := false
  screenInteractive : Bool := true

/-! ## What is read off the sensors

A sensor may have no value, and one without a value says neither that the phone is hot nor that
it has cooled down. -/

/-- `o.threshold.coerceIn(5, 50)`. -/
def threshold (o : Options) : ℤ := max 5 (min o.threshold 50)

/-- `i.battery in 1..100`. -/
def batteryKnown (i : Input) : Bool := 1 ≤ i.battery && i.battery ≤ 100

def low (i : Input) (o : Options) (prev : Memory) : Bool :=
  if i.charging then false
  else if !batteryKnown i then prev.low
  else decide (i.battery ≤ threshold o + if prev.low then 5 else 0)

def critical (i : Input) : Bool := 3 ≤ i.thermal || decide (45.0 ≤ i.temp)

def trigger (i : Input) (o : Options) : Bool :=
  critical i || 2 ≤ i.thermal
    || o.autoCool && (2 ≤ i.thermal || decide ((if i.charging then (39.0 : Float) else 41.0) ≤ i.temp))

/-- Unknown sensors are no evidence that the phone cooled down. -/
def known (i : Input) : Bool := decide (0 < i.temp) || 0 ≤ i.thermal

def cool (i : Input) : Bool :=
  known i && (decide (i.temp ≤ 0) || decide (i.temp < 38.0)) && i.thermal < 2

/-- Since when the phone has been cooling down; -1 where it is not. -/
def cooling (i : Input) (o : Options) (prev : Memory) : ℤ :=
  if !trigger i o && prev.hot && cool i then (if 0 ≤ prev.coolSince then prev.coolSince else i.now) else -1

/-- It has been cooling down for long enough. -/
def cooled (i : Input) (o : Options) (prev : Memory) : Bool :=
  (trigger i o || prev.hot) && 0 ≤ cooling i o prev && 120000 ≤ i.now - cooling i o prev

def remember (i : Input) (o : Options) (prev : Memory) : Memory where
  low := low i o prev
  hot := if cooled i o prev then false else trigger i o || prev.hot
  coolSince := if cooled i o prev then -1 else cooling i o prev

/-! ## The plan

The plan goes through the reasons not to work in a fixed order, and the first that holds is
given. Only if none does is work allowed. -/

/-- On the charger heavy work is possible. -/
def chargeWork (i : Input) (o : Options) (m : Memory) (pauseUntil : ℤ) : Bool :=
  i.charging && !m.hot && !i.lowMemory && !i.gaming && !i.recentLag && !i.saver && !m.low
    && decide (pauseUntil ≤ i.now) && !i.dataSaver && !(o.wifiOnly && i.metered)
    && !(o.protectTraffic && i.activeTraffic)

def ready : String := "Готов к фоновым улучшениям"

/-- The minutes of a pause that are left, begun ones included; the difference may wrap around. -/
def minutesLeft (i : Input) (pauseUntil : ℤ) : ℤ := (Int64.ofInt (pauseUntil - i.now + 59999)).toInt.tdiv 60000

def reason (i : Input) (o : Options) (m : Memory) (pauseUntil : ℤ) : String :=
  if m.hot then "Тепловая защита: ждём устойчивого остывания"
  else if i.lowMemory then "Нехватка памяти: откладываем необязательную работу"
  else if i.gaming then "Игровая сессия: фоновые улучшения приостановлены"
  else if i.saver then "Системная экономия энергии"
  else if m.low then "Низкий заряд батареи"
  else if i.now < pauseUntil then "Пауза улучшений: " ++ toString (minutesLeft i pauseUntil) ++ " мин"
  else if i.dataSaver then "Системная экономия трафика"
  else if o.wifiOnly && i.metered then "Ожидание сети без тарификации"
  else if chargeWork i o m pauseUntil && !i.screen then "Зарядка и выключенный экран: работаем на максимум"
  else if !i.screen && o.quietScreen then "Экран выключен: тихий режим"
  else if o.chargeOnly && !i.charging then "Улучшения только на зарядке"
  else if o.protectTraffic && i.activeTraffic then "Активный трафик: не мешаем загрузке"
  else if i.recentLag then "Телефон тормозил: фоновые улучшения приторможены, чтобы не мешать"
  else ready

def pressure (i : Input) (o : Options) (m : Memory) (pauseUntil : ℤ) : Bool :=
  m.hot || i.lowMemory || i.gaming || i.recentLag || i.saver || m.low || o.profile = "eco"
    || (!i.screen && !chargeWork i o m pauseUntil) || i.dataSaver || (o.protectTraffic && i.activeTraffic)

def evaluate (i : Input) (o : Options) (prev : Memory) (pauseUntil : ℤ) : Plan :=
  let m := remember i o prev
  let charge := chargeWork i o m pauseUntil
  let pressed := pressure i o m pauseUntil
  { memory := m
    allowed := reason i o m pauseUntil = ready || (charge && !i.screen)
    reason := reason i o m pauseUntil
    tcpParallel :=
      if m.hot || i.lowMemory || i.gaming then 2 else if pressed then 16 else if o.profile = "fast" then 128 else 64
    realParallel := if pressed then 2 else if o.profile = "fast" then 12 else 6
    loopMs := if !i.screen && !charge then 15000 else if pressed then 5000 else 3000
    healthyMs := if pressed then 45000 else 20000
    allowLight := !m.hot && !i.lowMemory && !i.gaming && !i.recentLag && !i.saver && !m.low
      && !decide (i.now < pauseUntil) && !(!i.screen && o.quietScreen && !charge) && !i.dataSaver
    deferTraffic := o.protectTraffic && i.activeTraffic
    screenInteractive := i.screen }

/-! ## One evaluation

What is remembered of the heat and of the battery depends on the reading and on what was
remembered before. Each guard has two thresholds, so a reading between them changes nothing. -/

section
variable {i : Input} {o : Options} {prev : Memory} {pauseUntil : ℤ}

/-- A reading that lets the phone cool down: a sensor is known, it is cool, and nothing triggers
the protection. -/
def calm (i : Input) (o : Options) : Bool := known i && cool i && !trigger i o

/-- A phone that cools down is calm, and has been since some time. -/
theorem calm_of_cooling (h : 0 ≤ cooling i o prev) : calm i o = true ∧
    (cooling i o prev = prev.coolSince ∨ prev.coolSince < 0 ∧ cooling i o prev = i.now) := by
  have hstill : (!trigger i o && prev.hot && cool i) = true := by
    by_contra hmoved
    rw [cooling, if_neg hmoved] at h
    omega
  have hcooling : cooling i o prev = if 0 ≤ prev.coolSince then prev.coolSince else i.now := by
    rw [cooling, if_pos hstill]
  rw [Bool.and_eq_true, Bool.and_eq_true] at hstill
  obtain ⟨⟨htrigger, -⟩, hcool⟩ := hstill
  have hknown : known i = true := by
    rw [cool, Bool.and_eq_true, Bool.and_eq_true] at hcool
    exact hcool.1.1
  refine ⟨?_, ?_⟩
  · rw [calm, hknown, hcool, htrigger]
    rfl
  · rw [hcooling]
    by_cases hsince : 0 ≤ prev.coolSince
    · exact .inl (if_pos hsince)
    · exact .inr ⟨not_le.mp hsince, if_neg hsince⟩

/-- The heat is over only after two minutes of cooling down. -/
theorem remember_hot (hprev : prev.hot = true) (h : (remember i o prev).hot = false) :
    0 ≤ cooling i o prev ∧ 120000 ≤ i.now - cooling i o prev := by
  have hcooled : cooled i o prev = true := by
    by_contra hwarm
    rw [remember, if_neg hwarm, hprev, Bool.or_true] at h
    cases h
  rw [cooled, Bool.and_eq_true, Bool.and_eq_true, decide_eq_true_eq, decide_eq_true_eq] at hcooled
  exact ⟨hcooled.1.2, hcooled.2⟩

/-- What is remembered of the cooling is the start of it. -/
theorem remember_coolSince (h : 0 ≤ (remember i o prev).coolSince) :
    (remember i o prev).coolSince = cooling i o prev := by
  have hcases : (remember i o prev).coolSince = if cooled i o prev then -1 else cooling i o prev := rfl
  rw [hcases] at h ⊢
  split at h
  · omega
  · rename_i hwarm
    exact if_neg hwarm

/-- A low battery is left on the charger or well above the threshold. -/
theorem remember_low (hprev : prev.low = true) (h : (remember i o prev).low = false) :
    i.charging = true ∨ batteryKnown i = true ∧ threshold o + 5 < i.battery := by
  have hlow : low i o prev = false := h
  rw [low] at hlow
  split at hlow
  · rename_i hcharging
    exact .inl hcharging
  · split at hlow
    · rw [hprev] at hlow
      cases hlow
    · rename_i hknown
      rw [decide_eq_false_iff_not, not_le] at hlow
      exact .inr ⟨by simpa using hknown, hlow⟩

theorem pause_ne_ready (t : String) : "Пауза улучшений: " ++ t ++ " мин" ≠ ready := by
  intro h
  have hpause : "Пауза улучшений: ".toList.head? = some 'П' := by decide
  have hready : ready.toList.head? = some 'Г' := by decide
  have hhead : ("Пауза улучшений: " ++ t ++ " мин").toList.head? = ready.toList.head? := by rw [h]
  rw [String.toList_append, String.toList_append, List.append_assoc, List.head?_append, hpause, hready,
    Option.some_or, Option.some.injEq] at hhead
  exact absurd hhead (by decide)

/-- What no allowed plan has. -/
structure Fit (i : Input) (m : Memory) (pauseUntil : ℤ) : Prop where
  hot : m.hot = false
  low : m.low = false
  paused : pauseUntil ≤ i.now
  saver : i.saver = false
  dataSaver : i.dataSaver = false
  lowMemory : i.lowMemory = false
  gaming : i.gaming = false

/-- The last reason is given only where the others are not. -/
theorem fit_of_ready {m : Memory} (h : reason i o m pauseUntil = ready) : Fit i m pauseUntil := by
  rw [reason] at h
  -- the reasons in the order of the source: the first that holds is told
  by_cases hhot : m.hot = true
  · rw [if_pos hhot] at h
    exact absurd h (by decide +kernel)
  rw [if_neg hhot] at h
  by_cases hmemory : i.lowMemory = true
  · rw [if_pos hmemory] at h
    exact absurd h (by decide +kernel)
  rw [if_neg hmemory] at h
  by_cases hgaming : i.gaming = true
  · rw [if_pos hgaming] at h
    exact absurd h (by decide +kernel)
  rw [if_neg hgaming] at h
  by_cases hsaver : i.saver = true
  · rw [if_pos hsaver] at h
    exact absurd h (by decide +kernel)
  rw [if_neg hsaver] at h
  by_cases hlow : m.low = true
  · rw [if_pos hlow] at h
    exact absurd h (by decide +kernel)
  rw [if_neg hlow] at h
  by_cases hpause : i.now < pauseUntil
  · rw [if_pos hpause] at h
    exact absurd h (pause_ne_ready _)
  rw [if_neg hpause] at h
  by_cases hdata : i.dataSaver = true
  · rw [if_pos hdata] at h
    exact absurd h (by decide +kernel)
  exact ⟨Bool.not_eq_true _ ▸ hhot, Bool.not_eq_true _ ▸ hlow, not_lt.mp hpause, Bool.not_eq_true _ ▸ hsaver,
    Bool.not_eq_true _ ▸ hdata, Bool.not_eq_true _ ▸ hmemory, Bool.not_eq_true _ ▸ hgaming⟩

/-- Work is charged for only where the phone is fit. -/
theorem fit_of_chargeWork {m : Memory} (h : chargeWork i o m pauseUntil = true) : Fit i m pauseUntil := by
  simp only [chargeWork, Bool.and_eq_true, Bool.not_eq_true', decide_eq_true_eq] at h
  obtain ⟨⟨⟨⟨⟨⟨⟨⟨⟨⟨-, hhot⟩, hmemory⟩, hgaming⟩, -⟩, hsaver⟩, hlow⟩, hpause⟩, hdata⟩, -⟩, -⟩ := h
  exact ⟨hhot, hlow, hpause, hsaver, hdata, hmemory, hgaming⟩

/-- **And allowed only there.** -/
theorem fit_of_allowed (h : (evaluate i o prev pauseUntil).allowed = true) :
    Fit i (evaluate i o prev pauseUntil).memory pauseUntil := by
  have hor : (decide (reason i o (remember i o prev) pauseUntil = ready)
      || (chargeWork i o (remember i o prev) pauseUntil && !i.screen)) = true := h
  rcases Bool.or_eq_true_iff.mp hor with hready | hcharge
  · exact fit_of_ready (of_decide_eq_true hready)
  · exact fit_of_chargeWork (Bool.and_eq_true_iff.mp hcharge).1

end

/-! ## Runs

Over a run the start of the cooling is the first of a row of calm readings. So a phone that
counts as cool was calm for two minutes, whatever came before. -/

/-- What an evaluation is given beside the options and the memory. -/
structure Call where
  input : Input
  pauseUntil : ℤ

section
variable (o : Options)

/-- The memory after calls, the latest of which is the first of the list. -/
def after : List Call → Memory
  | [] => {}
  | c :: earlier => (evaluate c.input o (after earlier) c.pauseUntil).memory

/-- The plan of a call after others. -/
def plan (c : Call) (earlier : List Call) : Plan := evaluate c.input o (after o earlier) c.pauseUntil

/-- From a call at time `since` on, every reading let the phone cool down. -/
def CalmSince (since : ℤ) (calls : List Call) : Prop :=
  ∃ later first earlier, calls = later ++ first :: earlier ∧ first.input.now = since ∧
    ∀ c ∈ later ++ [first], calm c.input o = true

variable {o}

/-- What a cooling begins with, or goes on with. -/
theorem calmSince_cons {c : Call} {earlier : List Call}
    (hearlier : 0 ≤ (after o earlier).coolSince → CalmSince o (after o earlier).coolSince earlier)
    (h : 0 ≤ cooling c.input o (after o earlier)) :
    CalmSince o (cooling c.input o (after o earlier)) (c :: earlier) := by
  obtain ⟨hcalm, hsame | ⟨-, hnow⟩⟩ := calm_of_cooling h
  · rw [hsame] at h ⊢
    obtain ⟨later, first, rest, rfl, hfirst, hall⟩ := hearlier h
    exact ⟨c :: later, first, rest, rfl, hfirst, List.forall_mem_cons.mpr ⟨hcalm, hall⟩⟩
  · have hall : ∀ d ∈ [c], calm d.input o = true := by
      intro d hd
      rw [List.mem_singleton.mp hd]
      exact hcalm
    rw [hnow]
    exact ⟨[], c, earlier, rfl, rfl, hall⟩

/-- The start of the cooling is a call, and all that followed were calm. -/
theorem calmSince_after (calls : List Call) (h : 0 ≤ (after o calls).coolSince) :
    CalmSince o (after o calls).coolSince calls := by
  induction calls with
  | nil =>
    have hfresh : (after o []).coolSince = -1 := rfl
    omega
  | cons c earlier ih =>
    have hsince : (after o (c :: earlier)).coolSince = cooling c.input o (after o earlier) := remember_coolSince h
    rw [hsince] at h ⊢
    exact calmSince_cons ih h

/-- **The guards do not flicker.** After any calls, the heat is over only when all readings of
the last two minutes or more let the phone cool down; a low battery is left only on the charger
or five percent above the threshold; and what a plan allows meets none of the conditions that
forbid it. -/
theorem no_flicker (o : Options) (c : Call) (earlier : List Call) :
    ((after o earlier).hot = true → (plan o c earlier).memory.hot = false →
      ∃ since, CalmSince o since (c :: earlier) ∧ since + 120000 ≤ c.input.now) ∧
    ((after o earlier).low = true → (plan o c earlier).memory.low = false →
      c.input.charging = true ∨ batteryKnown c.input = true ∧ threshold o + 5 < c.input.battery) ∧
    ((plan o c earlier).allowed = true → Fit c.input (plan o c earlier).memory c.pauseUntil) := by
  refine ⟨fun hhot hcold => ?_, remember_low, fit_of_allowed⟩
  obtain ⟨hsince, hlong⟩ := remember_hot hhot hcold
  refine ⟨_, calmSince_cons (calmSince_after earlier) hsince, ?_⟩
  omega

/-- A hot phone that is found cool a second later, and again two minutes after that. -/
def hotCall : Call := ⟨{ now := 0, thermal := 2 }, 0⟩

def coolCall (now : ℤ) : Call := ⟨{ now, thermal := 0 }, 0⟩

theorem after_hotCall : after {} [hotCall] = ⟨false, true, -1⟩ := by decide +kernel

theorem after_coolCall : after {} [coolCall 1000, hotCall] = ⟨false, true, 1000⟩ := by
  rw [after, after_hotCall]
  decide +kernel

theorem no_flicker_cooled : ∃ since, CalmSince {} since [coolCall 121000, coolCall 1000, hotCall] ∧ since + 120000 ≤ 121000 := by
  refine (no_flicker {} (coolCall 121000) [coolCall 1000, hotCall]).1 ?_ ?_
  · rw [after_coolCall]
  · rw [plan, after_coolCall]
    decide +kernel

end

end PowerPolicy

end VlessCard
