import JitFrames.Demo

/-! The demonstration as a program. The variable `JITWIND_MAX_FRAMES` limits how many callers it looks for. -/

def main : IO UInt32 := do
  let report := JitFrames.Demo.run (← IO.getEnv "JITWIND_MAX_FRAMES")
  report.lines.forM IO.println
  return report.exitCode.toUInt32
