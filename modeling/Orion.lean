import Orion.KheapSeparation
import Orion.SpaceTeardown
import Orion.KheapLimits
import Orion.StateDiagram
import Orion.ExitedFiles
import Orion.RoundRobin
import Orion.ContextRuns
import Orion.SlashPaths
import Orion.SleepTime
import Orion.YieldCall
import Orion.UserPages
import Orion.FailedLoad
import Orion.FileBuffers
import Orion.LibkString
import Orion.StdinReaders
import Orion.Kprintf
