import YRmx.Clock.Elapsed
import YRmx.Clock.Timer
import YRmx.Props.Cancels
import YRmx.Props.Deletion
import YRmx.Props.Delivery
import YRmx.Props.Interrupts
import YRmx.Props.Lateness
import YRmx.Props.Refusals
import YRmx.Props.Service
import YRmx.Props.Suspension
import YRmx.Props.TimeOuts
import YRmx.Props.TimedWaits
import YRmx.Props.WakeUps
import YRmx.Race.Freeze
import YRmx.Race.SelfSuspend
import YRmx.Race.StartUp
import YRmx.Race.TailTask
import YRmx.Registry.Launch
import YRmx.Registry.Tables
import YRmx.Yalrt.InterruptQueue
import YRmx.Yalrt.Mailboxes
import YRmx.Yalrt.Response
import YRmx.Yalrt.SuspendList
import YRmx.Race.Punctual
import YRmx.Race.TakeUps
