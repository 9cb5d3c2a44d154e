import ObjectHeap.CommandLine

/-! # The program -/

def main (args : List String) : IO UInt32 := do
  let reply := ObjectHeap.CommandLine.run args
  IO.print reply.out
  IO.eprint reply.err
  return reply.exitCode
