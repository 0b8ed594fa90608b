import Pisces.Lib.Runs
import Pisces.Lib.Locked
import Pisces.Lib.Bits
import Pisces.Mutex.Word
import Pisces.Mutex.Model
import Pisces.Mutex.Steps
import Pisces.Mutex.Owned
import Pisces.Mutex.Recursive
import Pisces.Mutex.Sleep
import Pisces.Mutex.Wakeup
import Pisces.Mutex.Normal
import Pisces.Mutex.Hold
import Pisces.Mutex.Destroy
import Pisces.Mutex.Calls
import Pisces.Mutex.Owner
import Pisces.Mutex.Timed
import Pisces.Mutex.Progress
import Pisces.Mutex.Stage
import Pisces.Mutex.Served
import Pisces.Mutex.SelfLock
import Pisces.Mutex.Exclusive
import Pisces.Mutex.Attr
import Pisces.Lib.Checked
import Pisces.Mutex.Deadline
import Pisces.Cond
import Pisces.Monitor.Model
import Pisces.Monitor.Wait
import Pisces.Monitor.Signal
import Pisces.Monitor.Timed
import Pisces.Lib.Script
import Pisces.Lib.Dir
import Pisces.Dualboot.Model
import Pisces.Dualboot.Moves
import Pisces.Dualboot.Rules
import Pisces.Dualboot.Legacy
import Pisces.Dualboot.Kept
import Pisces.Dualboot.CrashSafe
import Pisces.Dualboot.Enabled
import Pisces.Dualboot.Bootmark
import Pisces.Dualboot.Isolation
import Pisces.Dualboot.Overwrite
import Pisces.Dualboot.Versions
import Pisces.Dualboot.NewVersion
import Pisces.Dualboot.Modes
import Pisces.Dualboot.OffOn
import Pisces.Layout.Model
import Pisces.Layout.Migration
import Pisces.Layout.Boot
import Pisces.Lib.Awk
import Pisces.Lib.AwkPrint
import Pisces.Repartition.Model
import Pisces.Repartition.Resize
import Pisces.Repartition.Checks
import Pisces.Repartition.Room
import Pisces.Repartition.Tables
import Pisces.Lights.Model
import Pisces.Lights.Speaker
import Pisces.Lights.Shared
import Pisces.Lights.Brightness
import Pisces.Vibrator
import Pisces.Lib.Strtol
import Pisces.Sysfs
import Pisces.Alarm
import Pisces.Mixer.Tlv
import Pisces.Mixer.Open
import Pisces.Mixer.Convert
import Pisces.Mixer.Table
import Pisces.Mixer.Stored
