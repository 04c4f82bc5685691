import ResolverLog.Api
import ResolverLog.Proofs.ConfigRequest
import ResolverLog.Proofs.Failures
import ResolverLog.Proofs.Runs
import ResolverLog.Proofs.Signals

/-!
# What requests change

Only two routes change anything, and only by a post. A change of the
configuration is refused before anything is done; one that succeeds sets the
switch and the interval that the body asks for, and of the rest of the recorder
only the pending entries, which it writes first.
-/

namespace ResolverLog

namespace Service

variable {s s' : Service}

theorem recorder_adopt_of_ok {config : Config} (h : s.adopt config = (s', .ok ())) :
    s'.recorder = { s.recorder with config } := by
  rw [adopt] at h
  split at h
  · cases h
    rfl
  · cases h

/-- A configuration that is set is the one asked for; the log view and the statistics stay. -/
theorem recorder_configure_of_ok {enabled : Bool} {hours : UInt32}
    (h : s.configure enabled hours = (s', .ok ())) :
    ∃ pending, s'.recorder =
      { s.recorder with
        config := { s.recorder.config with enabled, intervalHours := hours }
        pending
        wakeRequested := false } := by
  by_cases hsupported : Config.isSupportedInterval hours = true
  · obtain ⟨pending, hflushed⟩ := recorder_flushNoting_true s fun _ e =>
      ascii "querylog: flush before reconfigure failed: " ++ e.message
    have hfirst : s.flushedFirst.recorder = { s.recorder with pending, wakeRequested := false } :=
      hflushed
    refine ⟨pending, ?_⟩
    rw [configure_eq s enabled hours hsupported] at h
    split at h
    · cases h
    · rename_i adopted hadopt
      have hrecorder := recorder_adopt_of_ok hadopt
      rw [hfirst] at hrecorder
      simp only at h
      split at h
      · cases h
        exact hrecorder
      · cases h
        exact hrecorder
  · rw [configure, Bool.eq_false_of_not_eq_true hsupported] at h
    cases h

end Service

namespace Api

/-- A change of the configuration is refused without any effect, fails to be stored, or succeeds
with the configuration that the body asks for. -/
theorem changeConfig_cases (s : Service) (body : Bytes) :
    (changeConfig s body).1 = s ∧ (changeConfig s body).2.status = 400 ∨
      (changeConfig s body).2.status = 500 ∨
      (changeConfig s body).2.status = 200 ∧ ∃ request pending,
        ConfigRequest.parse body = .ok request ∧
        (changeConfig s body).1.recorder =
          { s.recorder with
            config := { s.recorder.config with
              enabled := request.enabled
              intervalHours := request.interval }
            pending
            wakeRequested := false } := by
  rw [changeConfig]
  split
  · exact .inl ⟨rfl, rfl⟩
  · rename_i request hrequest
    split
    · exact .inl ⟨rfl, rfl⟩
    · split
      · rename_i configured hconfigure
        obtain ⟨pending, hrecorder⟩ := Service.recorder_configure_of_ok hconfigure
        exact .inr (.inr ⟨rfl, request, pending, hrequest, hrecorder⟩)
      · rename_i failed e hconfigure
        split
        · rename_i hvalidation
          rcases Service.configure_of_error hconfigure with ⟨-, rfl⟩ | ⟨hother, -⟩
          · exact .inl ⟨rfl, rfl⟩
          · rw [hother] at hvalidation
            cases hvalidation
        · exact .inr (.inl rfl)

theorem status_clearLog (s : Service) :
    (clearLog s).2.status = 200 ∨ (clearLog s).2.status = 500 := by
  rw [clearLog]
  split
  · exact .inl rfl
  · exact .inr rfl

/-- Only a post to one of two routes can change anything. -/
theorem handle_cases (s : Service) (method path query body : Bytes) :
    (handle s method path query body).1 = s ∧
        (route? path = some .config → (handle s method path query body).2.status = 405) ∨
      method = ascii "POST" ∧
        (route? path = some .config ∧ handle s method path query body = changeConfig s body ∨
          route? path = some .clear ∧ handle s method path query body = clearLog s) := by
  rw [handle]
  simp only [beq_iff_eq]
  cases route? path with
  | none => exact .inl ⟨rfl, nofun⟩
  | some route =>
      cases route with
      | log | info | top =>
          simp only
          split
          · exact .inl ⟨rfl, nofun⟩
          · exact .inl ⟨rfl, nofun⟩
      | config =>
          simp only
          split
          · rename_i hpost
            exact .inr ⟨hpost, .inl ⟨trivial, rfl⟩⟩
          · exact .inl ⟨rfl, fun _ => rfl⟩
      | clear =>
          simp only
          split
          · rename_i hpost
            exact .inr ⟨hpost, .inr ⟨trivial, rfl⟩⟩
          · exact .inl ⟨rfl, nofun⟩

/-- Requests that only read, and requests that are refused, change nothing. A configuration that
is accepted is what the body asks for, and neither the log view nor the statistics change. -/
theorem handle_frame (s : Service) (method path query body : Bytes) :
    (method = ascii "GET" ∨ (handle s method path query body).2.status ∈ [400, 404, 405] →
      (handle s method path query body).1 = s) ∧
    (route? path = some .config → (handle s method path query body).2.status = 200 →
      ∃ request, ConfigRequest.parse body = .ok request ∧
        (handle s method path query body).1.recorder.config =
          { s.recorder.config with
            enabled := request.enabled
            intervalHours := request.interval } ∧
        (handle s method path query body).1.recorder.recent = s.recorder.recent ∧
        (handle s method path query body).1.recorder.stats = s.recorder.stats) := by
  rcases handle_cases s method path query body with
    ⟨hsame, hconfig⟩ | ⟨rfl, ⟨hroute, hhandle⟩ | ⟨hroute, hhandle⟩⟩
  · refine ⟨fun _ => hsame, fun hroute hstatus => ?_⟩
    rw [hconfig hroute] at hstatus
    cases hstatus
  · rw [hhandle]
    have hget : ascii "POST" ≠ ascii "GET" := by decide
    rw [or_iff_right hget]
    rcases changeConfig_cases s body with
      ⟨hsame, hstatus⟩ | hstatus | ⟨hstatus, request, pending, hparse, hrecorder⟩
    · refine ⟨fun _ => hsame, fun _ hok => ?_⟩
      rw [hstatus] at hok
      cases hok
    · rw [hstatus]
      exact ⟨fun hrefused => absurd hrefused (by decide), fun _ hok => by cases hok⟩
    · rw [hstatus, hrecorder]
      refine ⟨fun hrefused => absurd hrefused (by decide), fun _ _ => ?_⟩
      exact ⟨request, hparse, rfl, rfl, rfl⟩
  · rw [hhandle, hroute]
    refine ⟨?_, nofun⟩
    rintro (hget | hrefused)
    · exact absurd hget (by decide)
    · rcases status_clearLog s with hstatus | hstatus
      · rw [hstatus] at hrefused
        exact absurd hrefused (by decide)
      · rw [hstatus] at hrefused
        exact absurd hrefused (by decide)

/-- A service that runs, with one entry pending. -/
def attended : Service :=
  (((Service.launch .small .empty .silent).start 5).ingest (.asking 1) 5).1

/-- A body that switches recording off. -/
def switchOff : Bytes :=
  ascii "\x7b \"interval\": 168, \"enabled\": false \x7d"

/-- A get of the path that clears, a post to a path that is none and a body without members change
nothing. Switching off changes what the body says. -/
theorem handle_frame_attended :
    (handle attended (ascii "GET") (ascii "/control/querylog_clear") [] []).1 = attended ∧
    (handle attended (ascii "POST") (ascii "/control/clear") [] []).1 = attended ∧
    (handle attended (ascii "POST") (ascii "/control/querylog_config") []
      (ascii "\x7b\x7d")).1 = attended ∧
    (handle attended (ascii "POST") (ascii "/control/querylog_config") []
      switchOff).1.recorder.config =
        { attended.recorder.config with enabled := false, intervalHours := 168 } := by
  have hstatus : (handle attended (ascii "POST") (ascii "/control/querylog_config") []
      switchOff).2.status = 200 := by
    decide +kernel
  have hparse : ConfigRequest.parse switchOff = .ok ⟨false, 168⟩ := by decide +kernel
  refine ⟨?_, ?_, ?_, ?_⟩
  · exact (handle_frame attended (ascii "GET") (ascii "/control/querylog_clear") [] []).1 (.inl rfl)
  · exact (handle_frame attended (ascii "POST") (ascii "/control/clear") [] []).1
      (.inr (by decide))
  · exact (handle_frame attended (ascii "POST") (ascii "/control/querylog_config") []
      (ascii "\x7b\x7d")).1 (.inr (by decide))
  · obtain ⟨request, hrequest, hconfig, -, -⟩ :=
      (handle_frame attended (ascii "POST") (ascii "/control/querylog_config") []
        switchOff).2 (by decide) hstatus
    cases hparse.symm.trans hrequest
    exact hconfig

end Api

end ResolverLog
