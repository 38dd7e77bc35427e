import CellModem.Modem

/-!
# Polling a task

A task that is polled does what it can: it takes the line if it is free, goes on
with the request it is running, begins the next one, or ends. It runs no more
than one request to its end in one go, because the next one finds the queue of
received lines empty.
-/

namespace CellModem.Modem

def carryOut (m : Modem) (id : Nat) : Move → Traced Output Modem
  | .run timeout request rest => do
    let request ← request.shown
    let (run, link) ← (Run.start request timeout m.now m.link).shown
    return { m with link := link }.setStage id (.running rest run)
  | .pause ms rest => return m.setStage id (.pausing rest (m.now + ms))
  | .finish outcome => do
    Traced.report (.finished id outcome)
    return m.removeTask id

def continueRun (m : Modem) (id : Nat) (plan : Plan) (run : Run) :
    Traced Output Modem := do
  let (run, link, result) ← (run.poll m.now m.link).shown
  let m := { m with link := link }
  match result with
  | none => return m.setStage id (.running plan run)
  | some result =>
    let move ← (plan.resume result).shown
    m.carryOut id move

/-- Polls a task; there is no result if it has to go on waiting. -/
def pollTask (m : Modem) (t : Task) : Option (Traced Output Modem) :=
  match t.stage with
  | .listening =>
    match m.link.urcs.receive with
    | (none, _) => none
    | (some receipt, urcs) =>
      some ({ m with link := { m.link with urcs := urcs } }.carryOut t.id
        (.finish (.heard receipt)))
  | .waiting plan =>
    if m.isTaken then none else some (m.carryOut t.id plan.next)
  | .pausing plan deadline =>
    if deadline ≤ m.now then some (m.carryOut t.id plan.next) else none
  | .running plan run =>
    if run.canMove m.now m.link
      then some (m.continueRun t.id plan run) else none

def firstStage : Job → Stage
  | .bringUp => .waiting (.probe (.of .standard) 0)
  | .single request => .waiting (.single request)
  | .session timeout entries => .waiting (.session (.of timeout) entries [])
  | .nextUrc => .listening

/-- Begins a job. Bringing the modem up is announced before the
line is asked for. -/
def begin (m : Modem) (job : Job) : Traced Output Modem := do
  Traced.report (.begun m.begun)
  match job with
  | .bringUp => Traced.report (.notice .bringingUp)
  | _ => pure ()
  return { m with
    tasks := m.tasks ++ [⟨m.begun, firstStage job⟩]
    begun := m.begun + 1 }

end CellModem.Modem
